import CurlyTemplate.Files.Disk
import CurlyTemplate.Files.Location
import CurlyTemplate.Files.Pattern

/-!
# Searching by pattern

A pattern is followed component by component, from the root if it begins with a slash
and else from the working folder. A component that is a plain name is looked up; for any
other one the names in the folder are gone through in ascending order. Two stars take a
folder with all below it, the folder before what is inside. The special names `.` and `..`
are found by a component that starts with a dot, and then come first.
-/

namespace CurlyTemplate

namespace Files

variable {m : Type → Type} [Monad m]

/-- What a search comes upon: a location, or a folder that could not be read. -/
abbrev Finding := Except (String × Failure) String

/-- The wording of a folder that could not be read. -/
def unreadableMessage (location : String) (failure : Failure) : String :=
  s!"attempting to read `{location}` resulted in an error: {failure.message}"

/-- Whether a location is the working folder. -/
def isHere (location : String) : Bool := sameLocation location.toList ['.']

/-- A name inside a folder; the working folder is not named. -/
def inside (folder name : String) : String :=
  if isHere folder then name else String.ofList (join folder.toList name.toList)

/-- A location that fits the whole pattern. A pattern that ends in a slash finds only
folders. -/
def found (disk : Disk m) (foldersOnly : Bool) (location : String) : m (List Finding) := do
  if foldersOnly then
    if ← disk.isFolder location then pure [.ok location] else pure []
  else pure [.ok location]

mutual

/-- What the components find inside a folder. The first argument bounds how deep the
search goes. -/
def searchIn (disk : Disk m) (foldersOnly : Bool) :
    Nat → List Pattern → String → m (List Finding)
  | 0, _, _ => pure []
  | _ + 1, [], _ => pure []
  | depth + 1, p :: rest, folder => do
      let onward (location : String) : m (List Finding) :=
        if rest.isEmpty then found disk foldersOnly location
        else searchIn disk foldersOnly depth rest location
      let isFolder ← disk.isFolder folder
      match p.literal? with
      | some name =>
          let location := inside folder (String.ofList name)
          let there ← if name = ['.'] ∨ name = ['.', '.'] then pure isFolder
            else disk.existsAt location
          if there then onward location else pure []
      | none =>
          if !isFolder then pure []
          else
            match ← disk.entries folder with
            | .error failure => pure [.error (folder, failure)]
            | .ok names => do
                let special (name : String) : m (List Finding) :=
                  if p.startsWithDot && p.accepts name.toList then
                    onward (String.ofList (join folder.toList name.toList))
                  else pure []
                let above ← special ".."
                let here ← special "."
                let sorted := names.mergeSort fun a b => decide (a ≤ b)
                let below ← sorted.mapM fun name =>
                  searchAt disk foldersOnly depth p rest name (inside folder name)
                pure (above ++ here ++ below.flatten)

/-- What the components find from an entry of a folder on. -/
def searchAt (disk : Disk m) (foldersOnly : Bool) :
    Nat → Pattern → List Pattern → String → String → m (List Finding)
  | 0, _, _, _, _ => pure []
  | depth + 1, p, rest, name, location => do
      let here (p : Pattern) (rest : List Pattern) : m (List Finding) :=
        if p.accepts name.toList then
          if rest.isEmpty then found disk foldersOnly location
          else searchIn disk foldersOnly depth rest location
        else pure []
      if p.isAnyDepth then
        let rest := rest.dropWhile (·.isAnyDepth)
        let below ← if ← disk.isFolder location then
            searchIn disk foldersOnly depth (p :: rest) location
          else pure []
        match rest with
        | [] => if ← disk.isFolder location then pure (.ok location :: below) else pure []
        | q :: rest => do
            let own ← here q rest
            pure (own ++ below)
      else here p rest

end

/-- More steps than a search takes: each makes the location longer, and no system
knows locations this long. -/
def searchDepth : Nat := 8192

/-- All that a pattern finds, in order. The whole pattern is checked first, then each of
its components. -/
def search (disk : Disk m) (pattern : String) : m (Except PatternError (List Finding)) := do
  let text := pattern.toList
  let (start, below) := if isAbsolute text then ("/", text.drop 1) else (".", text)
  match Pattern.ofChars text, (splitPattern below).mapM Pattern.ofChars with
  | .error e, _ => pure (.error e)
  | _, .error e => pure (.error e)
  | .ok _, .ok components => do
      let findings ← searchIn disk (text.getLast? == some '/') searchDepth components start
      pure (.ok findings)

end Files

end CurlyTemplate
