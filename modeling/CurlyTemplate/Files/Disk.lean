/-!
# Disks

What a run needs of the files around it: to look, to read, to write. A `Disk` offers
this in some monad, so that the same program runs on the files of a system and on a
store held in memory.
-/

namespace CurlyTemplate

namespace Files

/-- Why something could not be done with a file. -/
inductive Failure where
  | notFound
  | alreadyExists
  | notFolder
  | isFolder
  /-- A name or the whole location has more bytes than the system takes. -/
  | nameTooLong
  /-- The location holds a null character. -/
  | nullInName
  /-- The content is no Unicode text. -/
  | notText
  | other (message : String)
deriving Repr, DecidableEq

def Failure.message : Failure → String
  | .notFound => "No such file or directory (os error 2)"
  | .alreadyExists => "File exists (os error 17)"
  | .notFolder => "Not a directory (os error 20)"
  | .isFolder => "Is a directory (os error 21)"
  | .nameTooLong => "File name too long (os error 36)"
  | .nullInName => "file name contained an unexpected NUL byte"
  | .notText => "stream did not contain valid UTF-8"
  | .other message => message

/-- The files around a run. -/
structure Disk (m : Type → Type) where
  /-- Whether there is anything at a location. -/
  existsAt : String → m Bool
  /-- Whether there is a folder at a location. -/
  isFolder : String → m Bool
  /-- The names in a folder. -/
  entries : String → m (Except Failure (List String))
  /-- The text of a file. -/
  readText : String → m (Except Failure String)
  /-- Makes one folder. -/
  makeFolder : String → m (Except Failure Unit)
  /-- Writes a file, over an older one at the same location. -/
  writeText : String → String → m (Except Failure Unit)
  /-- Writes to the output of the run. -/
  print : String → m (Except Failure Unit)

end Files

end CurlyTemplate
