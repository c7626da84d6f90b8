import CurlyTemplate.Batch.CommandLine

/-!
# The program

The command line on the files of the system. Folders are not listed here, so patterns
are left to the shell; everything else is done as on any other disk.
-/

namespace CurlyTemplate

open Files (Disk Failure)

/-- The failure that the system tells of. -/
def failureOf : IO.Error → Failure
  | .noFileOrDirectory .. => .notFound
  | .alreadyExists .. => .alreadyExists
  | .inappropriateType _ code _ => if code = 20 then .notFolder else .isFolder
  | .invalidArgument _ 36 _ => .nameTooLong
  | e => .other (toString e)

def attempt {α : Type} (act : IO α) : IO (Except Failure α) := do
  try
    return .ok (← act)
  catch e =>
    return .error (failureOf e)

/-- Whether the system finds anything at a location, be it readable or not. -/
def isThere (location : String) : IO Bool :=
  return (← attempt (IO.FS.realPath location)).isOk

def systemDisk : Disk IO where
  existsAt := isThere
  -- A slash behind a location asks for a folder there.
  isFolder location := return (← isThere location) && (← isThere (location ++ "/"))
  entries _ := return .error (.other "folders are not listed")
  readText location := do
    match ← attempt (IO.FS.readBinFile location) with
    | .error failure => return .error failure
    | .ok bytes =>
        match String.fromUTF8? bytes with
        | some text => return .ok text
        | none => return .error .notText
  makeFolder location := attempt (IO.FS.createDir location)
  writeText location text := attempt (IO.FS.writeFile location text)
  print text := attempt do
    let out ← IO.getStdout
    out.putStr text
    out.flush

end CurlyTemplate

open CurlyTemplate in
/-- Runs the command line and writes the complaints to the error output. -/
def main (arguments : List String) : IO UInt32 := do
  match Batch.Command.ofArguments? arguments with
  | none =>
      IO.eprint Batch.usageText
      return Batch.usageCode.toUInt32
  | some command =>
      let exit ← command.perform systemDisk
      for line in exit.complaints do
        IO.eprintln line
      return exit.code.toUInt32
