import CurlyTemplate.Text.Segments

/-!
# Locations of files

A location is a text of names with slashes between them. Empty names and dots count
for nothing, except a dot at the very start; two locations are the same when the names
that count are. The extension of a name is what stands behind its last dot, unless
the dot comes first.
-/

namespace CurlyTemplate

namespace Files

/-- Whether a location starts at the root. -/
def isAbsolute (location : List Char) : Bool := location.head? == some '/'

/-- A name that counts wherever it stands. -/
def counts (name : List Char) : Bool := name != [] && name != ['.']

/-- The names that count. -/
def components (location : List Char) : List (List Char) :=
  match Text.segments '/' location with
  | ['.'] :: rest => ['.'] :: rest.filter counts
  | names => names.filter counts

def sameLocation (a b : List Char) : Bool :=
  isAbsolute a == isAbsolute b && components a == components b

/-- The name of the file at a location. -/
def fileName? (location : List Char) : Option (List Char) :=
  match (components location).getLast? with
  | some ['.'] => none
  | some ['.', '.'] => none
  | last => last

/-- A name up to its last dot, and the extension behind it. -/
def splitExtension (name : List Char) : List Char × Option (List Char) :=
  let extension := (name.reverse.takeWhile (· ≠ '.')).reverse
  let stem := name.take (name.length - extension.length - 1)
  if extension.length < name.length ∧ stem ≠ [] then (stem, some extension) else (name, none)

/-- The name of the file without its extension. -/
def fileStem? (location : List Char) : Option (List Char) :=
  (fileName? location).map fun name => (splitExtension name).1

def extension? (location : List Char) : Option (List Char) :=
  (fileName? location).bind fun name => (splitExtension name).2

def join (base name : List Char) : List Char :=
  if isAbsolute name then name
  else if base = [] ∨ base.getLast? = some '/' then base ++ name
  else base ++ '/' :: name

/-- Drops from the end of a location, written backwards, what does not count. -/
def dropTrailing : List Char → List Char
  | '/' :: rest => dropTrailing rest
  | '.' :: '/' :: rest => dropTrailing rest
  | s => s

/-- The location up to the end of the stem of its file name. -/
def upToStem? (location : List Char) : Option (List Char) :=
  (fileName? location).map fun name =>
    let trimmed := (dropTrailing location.reverse).reverse
    trimmed.take (trimmed.length - name.length + (splitExtension name).1.length)

/-- The location with another extension. The old extension is cut off first; what is
left may have no file name any more (`..` for `...`), and then stays as it is. -/
def withExtension (location extension : List Char) : List Char :=
  let cut := match extension? location with
    | some old => location.take (location.length - old.length)
    | none => location
  match upToStem? cut with
  | some stem => stem ++ '.' :: extension
  | none => cut

/-- The locations of the folders around a location, the innermost first. -/
def folders (location : List Char) : List (List Char) :=
  let names := components location
  let root := if isAbsolute location then ['/'] else []
  ((List.range names.length).map fun n => root ++ Text.joinSegments '/' (names.take n)).reverse

theorem sameLocation_iff {a b : List Char} :
    sameLocation a b = true ↔ isAbsolute a = isAbsolute b ∧ components a = components b := by
  simp [sameLocation]

@[simp] theorem sameLocation_self (a : List Char) : sameLocation a a = true := by
  simp [sameLocation]

theorem sameLocation_comm (a b : List Char) : sameLocation a b = sameLocation b a := by
  rw [Bool.eq_iff_iff, sameLocation_iff, sameLocation_iff]
  exact and_congr eq_comm eq_comm

/-- A stem and its extension give the name back. -/
theorem splitExtension_append {name stem extension : List Char}
    (h : splitExtension name = (stem, some extension)) : stem ++ '.' :: extension = name := by
  simp only [splitExtension] at h
  split at h
  · next hc =>
      simp only [Prod.mk.injEq, Option.some.injEq] at h
      obtain ⟨rfl, rfl⟩ := h
      have hsplit : name = (name.reverse.dropWhile (· ≠ '.')).reverse ++
          (name.reverse.takeWhile (· ≠ '.')).reverse := by
        rw [← List.reverse_append, List.takeWhile_append_dropWhile, List.reverse_reverse]
      have hlen : (name.reverse.dropWhile (· ≠ '.')).length +
          (name.reverse.takeWhile (· ≠ '.')).length = name.length := by
        have := congrArg List.length hsplit
        simp only [List.length_append, List.length_reverse] at this
        omega
      have hne : name.reverse.dropWhile (· ≠ '.') ≠ [] := by
        intro he
        rw [he] at hlen
        simp only [List.length_nil, List.length_reverse] at hlen hc
        omega
      obtain ⟨c, before, hb⟩ := List.exists_cons_of_ne_nil hne
      have hdot : c = '.' := by
        have hn := List.head_dropWhile_not (fun x => decide (x ≠ '.')) hne
        simp only [hb, List.head_cons] at hn
        simpa using hn
      subst hdot
      rw [hb] at hsplit hlen
      have htake : name.take (name.length - (name.reverse.takeWhile (· ≠ '.')).reverse.length - 1)
          = before.reverse := by
        have hn : name.length - (name.reverse.takeWhile (· ≠ '.')).reverse.length - 1
            = before.reverse.length := by
          simp only [List.length_cons, List.length_reverse] at hlen ⊢
          omega
        rw [hn]
        conv => lhs; rw [hsplit]
        simp
      rw [htake]
      conv => rhs; rw [hsplit]
      simp
  · simp at h

end Files

end CurlyTemplate
