import CurlyTemplate.Files.Disk
import CurlyTemplate.Text.Segments

/-!
# Stores

Files and folders held in memory. A location is followed name by name, from the root
or from the working folder: each name but the last must be a folder. Names and
locations are as short as a system wants them, counted in bytes of UTF-8.
-/

namespace CurlyTemplate

namespace Files

/-- A file, or a folder with its entries by name. -/
inductive Entry where
  | file (bytes : ByteArray)
  | folder (entries : List (String × Entry))

namespace Entry

/-- Whether an entry is a folder. -/
def isFolder : Entry → Bool
  | .folder _ => true
  | .file _ => false

/-- What has a name in a folder. -/
def get? (e : Entry) (name : String) : Option Entry :=
  match e with
  | .folder entries => entries.lookup name
  | .file _ => none

def names : Entry → List String
  | .folder entries => entries.map (·.1)
  | .file _ => []

/-- Gives something a name in a folder, in place of what had the name before. -/
def set (e : Entry) (name : String) (new : Entry) : Entry :=
  match e with
  | .folder entries =>
      .folder (if (entries.lookup name).isSome then
          entries.map fun old => if old.1 == name then (name, new) else old
        else entries ++ [(name, new)])
  | .file bytes => .file bytes

/-- Replacing what has a name keeps it from being absent. -/
theorem lookup_replace_self {entries : List (String × Entry)} {name : String} (new : Entry)
    (h : (entries.lookup name).isSome) :
    (entries.map fun old => if old.1 == name then (name, new) else old).lookup name =
      some new := by
  induction entries with
  | nil => simp at h
  | cons old rest ih =>
      obtain ⟨key, entry⟩ := old
      by_cases hn : key = name
      · simp [hn]
      · have hb : (name == key) = false := beq_eq_false_iff_ne.mpr (Ne.symm hn)
        rw [List.lookup_cons, hb] at h
        simpa [List.lookup_cons, hn, hb] using ih h

/-- Replacing what has a name leaves the others alone. -/
theorem lookup_replace_of_ne (entries : List (String × Entry)) {name other : String}
    (new : Entry) (h : other ≠ name) :
    (entries.map fun old => if old.1 == name then (name, new) else old).lookup other =
      entries.lookup other := by
  induction entries with
  | nil => rfl
  | cons old rest ih =>
      obtain ⟨key, entry⟩ := old
      by_cases hn : key = name
      · have hb : (other == name) = false := beq_eq_false_iff_ne.mpr h
        simpa [List.lookup_cons, hn, hb] using ih
      · cases hb : other == key
        · simpa [List.lookup_cons, hn, hb] using ih
        · simp [List.lookup_cons, hn, hb]

/-- What was given a name in a folder has it. -/
theorem get?_set_self {e : Entry} (h : e.isFolder) (name : String) (new : Entry) :
    (e.set name new).get? name = some new := by
  cases e with
  | file bytes => simp [isFolder] at h
  | folder entries =>
      simp only [set, get?]
      split
      · next hs => exact lookup_replace_self new hs
      · next hs => simp [List.lookup_append, Option.not_isSome_iff_eq_none.mp hs]

/-- Every other name in the folder keeps its entry. -/
theorem get?_set_of_ne (e : Entry) {name other : String} (new : Entry) (h : other ≠ name) :
    (e.set name new).get? other = e.get? other := by
  cases e with
  | file bytes => rfl
  | folder entries =>
      simp only [set, get?]
      split
      · exact lookup_replace_of_ne entries new h
      · have hb : (other == name) = false := beq_eq_false_iff_ne.mpr h
        simp [List.lookup_append, List.lookup_cons, hb]

/-- What is found by following names. -/
def find? (e : Entry) : List String → Option Entry
  | [] => some e
  | name :: rest =>
      match e.get? name with
      | none => none
      | some inner => inner.find? rest

/-- Puts something where names lead to, making folders on the way. -/
def put (e : Entry) (names : List String) (new : Entry) : Entry :=
  match names with
  | [] => new
  | name :: rest => e.set name (((e.get? name).getD (.folder [])).put rest new)

mutual

/-- The files in a folder, by the names that lead to them. -/
def files : Entry → List (List String × ByteArray)
  | .file bytes => [([], bytes)]
  | .folder entries => filesOf entries

/-- The files among the entries of a folder. -/
def filesOf : List (String × Entry) → List (List String × ByteArray)
  | [] => []
  | (name, e) :: rest =>
      (e.files.map fun (names, bytes) => (name :: names, bytes)) ++ filesOf rest

end

end Entry

/-- A place in a store: what is there, and the folders that lead to it. -/
structure Place where
  entry : Entry
  /-- The folders from the innermost to the root, each with the name that leads on. -/
  above : List (String × Entry)

namespace Place

/-- The folder around a place. The root is around itself. -/
def up (p : Place) : Place :=
  match p.above with
  | [] => p
  | (_, folder) :: rest => ⟨folder, rest⟩

/-- An entry of the folder at a place. -/
def down (p : Place) (name : String) (entry : Entry) : Place := ⟨entry, (name, p.entry) :: p.above⟩

/-- What is at the root after the entry at the place was changed. -/
def root (p : Place) (changed : Entry) : Entry :=
  p.above.foldl (fun inner (name, folder) => folder.set name inner) changed

end Place

/-- Files and folders below a root, and the names from the root to the working folder. -/
structure Store where
  root : Entry
  working : List String

namespace Store

/-- A store with nothing in its working folder. -/
def blank : Store :=
  let working := ["tmp", "working"]
  ⟨(Entry.folder []).put working (.folder []), working⟩

/-- Puts something where names lead to from the working folder, making folders on the
way. -/
def put (store : Store) (names : List String) (entry : Entry) : Store :=
  { store with root := store.root.put (store.working ++ names) entry }

/-- What is found by following names from the working folder. -/
def find? (store : Store) (names : List String) : Option Entry :=
  store.root.find? (store.working ++ names)

/-- The files in the working folder. -/
def files (store : Store) : List (List String × ByteArray) :=
  match store.find? [] with
  | some e => e.files
  | none => []

/-- A name has this many bytes at most. -/
def nameLimit : Nat := 255

/-- A location has this many bytes at most. -/
def locationLimit : Nat := 4095

/-- Fails for a location that nothing can be at. -/
def checkLocation (location : String) : Except Failure Unit :=
  if location.isEmpty then .error .notFound
  else if location.toList.contains '\x00' then .error .nullInName
  else if locationLimit < location.utf8ByteSize then .error .nameTooLong
  else .ok ()

/-- Follows names from a place on. -/
def walk : Place → List String → Except Failure Place
  | place, [] => .ok place
  | place, name :: rest =>
      if !place.entry.isFolder then .error .notFolder
      else if name = "" ∨ name = "." then walk place rest
      else if name = ".." then walk place.up rest
      else if nameLimit < name.utf8ByteSize then .error .nameTooLong
      else
        match place.entry.get? name with
        | none => .error .notFound
        | some entry => walk (place.down name entry) rest

/-- The names of a location, empty ones and dots among them. -/
def namesOf (location : String) : List String :=
  (Text.segments '/' location.toList).map String.ofList

/-- Follows names from where a location starts. -/
def follow (store : Store) (location : String) (names : List String) : Except Failure Place := do
  let root : Place := ⟨store.root, []⟩
  if location.toList.head? = some '/' then walk root names
  else
    let working ← walk root store.working
    walk working names

/-- The place that a location leads to. -/
def resolve (store : Store) (location : String) : Except Failure Place := do
  checkLocation location
  store.follow location (namesOf location)

def readText (store : Store) (location : String) : Except Failure String := do
  match (← store.resolve location).entry with
  | .folder _ => .error .isFolder
  | .file bytes =>
      match String.fromUTF8? bytes with
      | some text => .ok text
      | none => .error .notText

/-- A place for something new: the folder that a location lies in, and the last name
with whether a slash follows it. -/
def resolveNew (store : Store) (location : String) : Except Failure (Place × String × Bool) := do
  checkLocation location
  let names := namesOf location
  let trimmed := (names.reverse.dropWhile (· == "")).reverse
  let place ← store.follow location trimmed.dropLast
  if place.entry.isFolder then pure (place, trimmed.getLastD "", trimmed.length < names.length)
  else .error .notFolder

/-- Whether a name means a folder that is there already. -/
def isSpecial (name : String) : Bool := name == "" || name == "." || name == ".."

/-- Makes a folder where nothing stands yet. -/
def makeFolder (store : Store) (location : String) : Except Failure Store := do
  let (place, name, _) ← store.resolveNew location
  if isSpecial name then .error .alreadyExists
  else if nameLimit < name.utf8ByteSize then .error .nameTooLong
  else
    match place.entry.get? name with
    | some _ => .error .alreadyExists
    | none => .ok { store with root := place.root (place.entry.set name (.folder [])) }

def writeText (store : Store) (location : String) (text : String) : Except Failure Store := do
  let (place, name, slash) ← store.resolveNew location
  if slash ∨ isSpecial name then .error .isFolder
  else if nameLimit < name.utf8ByteSize then .error .nameTooLong
  else
    match place.entry.get? name with
    | some (.folder _) => .error .isFolder
    | _ => .ok { store with root := place.root (place.entry.set name (.file text.toUTF8)) }

end Store

/-- A store together with what was printed. -/
structure Session where
  store : Store
  output : String

/-- Does a change to the store if it succeeds. -/
def Session.change (step : Store → Except Failure Store) : StateM Session (Except Failure Unit) :=
  fun session =>
    match step session.store with
    | .ok store => (.ok (), { session with store := store })
    | .error failure => (.error failure, session)

/-- A store as the disk of a run. -/
def storeDisk : Disk (StateM Session) where
  existsAt location := do return (← get).store.resolve location |>.isOk
  isFolder location := do
    match (← get).store.resolve location with
    | .ok place => return place.entry.isFolder
    | .error _ => return false
  entries location := do
    match (← get).store.resolve location with
    | .error failure => return .error failure
    | .ok place =>
        if place.entry.isFolder then return .ok place.entry.names else return .error .notFolder
  readText location := do return (← get).store.readText location
  makeFolder location := Session.change fun store => store.makeFolder location
  writeText location text := Session.change fun store => store.writeText location text
  print text := do
    modify fun session => { session with output := session.output ++ text }
    return .ok ()

end Files

end CurlyTemplate
