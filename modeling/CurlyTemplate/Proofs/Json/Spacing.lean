import CurlyTemplate.Json.Printer
import CurlyTemplate.Json.Reader

/-!
# Spaces between the parts of a text

The compact and the pretty form of a value differ in the spaces between its parts and in
nothing else. `Value.spaced` leaves these open; a `Spacing` says what stands behind a
colon, and in front of items, members and closing brackets. A reader passes over all of
it (`Spacing.skipSpace_gap`).
-/

namespace CurlyTemplate

namespace Json

theorem skipSpace_append {gap : List Char} (h : ∀ c ∈ gap, isSpace c = true)
    (rest : List Char) : skipSpace (gap ++ rest) = skipSpace rest := by
  induction gap with
  | nil => rfl
  | cons c gap ih =>
      rw [List.forall_mem_cons] at h
      rw [List.cons_append, skipSpace, if_pos h.1, ih h.2]

theorem skipSpace_cons {c : Char} (h : isSpace c = false) (rest : List Char) :
    skipSpace (c :: rest) = c :: rest := by
  simp [skipSpace, h]

/-- What stands between the parts of a text. -/
structure Spacing where
  /-- In front of what stands on a level. -/
  gap : Nat → List Char
  /-- Behind a colon. -/
  colon : List Char
  isSpace_of_mem_gap : ∀ level, ∀ c ∈ gap level, isSpace c = true
  isSpace_of_mem_colon : ∀ c ∈ colon, isSpace c = true

namespace Spacing

/-- No spaces at all. -/
def none : Spacing where
  gap _ := []
  colon := []
  isSpace_of_mem_gap _ _ h := nomatch h
  isSpace_of_mem_colon _ h := nomatch h

/-- Everything on a line of its own. -/
def lines : Spacing where
  gap := newline
  colon := [' ']
  isSpace_of_mem_gap level c h := by
    rcases List.mem_cons.mp h with rfl | h
    · rfl
    · rw [List.eq_of_mem_replicate h]
      rfl
  isSpace_of_mem_colon c h := by
    rw [List.mem_singleton.mp h]
    rfl

theorem skipSpace_gap (g : Spacing) (level : Nat) (rest : List Char) :
    skipSpace (g.gap level ++ rest) = skipSpace rest :=
  skipSpace_append (g.isSpace_of_mem_gap level) rest

theorem skipSpace_colon (g : Spacing) (rest : List Char) :
    skipSpace (g.colon ++ rest) = skipSpace rest :=
  skipSpace_append g.isSpace_of_mem_colon rest

end Spacing

mutual

/-- The text of a value that starts at a level. -/
def Value.spaced (g : Spacing) (level : Nat) : Value → List Char
  | .array (v :: rest) =>
      '[' :: (g.gap (level + 1) ++ (v.spaced g (level + 1) ++ spacedItems g level rest))
  | .object ((k, v) :: rest) =>
      '{' :: (g.gap (level + 1) ++ (quote k ++ ':' :: (g.colon ++
        (v.spaced g (level + 1) ++ spacedMembers g level rest))))
  | v => v.compactChars

/-- The items after the first, up to the closing bracket. -/
def spacedItems (g : Spacing) (level : Nat) : List Value → List Char
  | [] => g.gap level ++ [']']
  | v :: rest =>
      ',' :: (g.gap (level + 1) ++ (v.spaced g (level + 1) ++ spacedItems g level rest))

/-- The members after the first, up to the closing brace. -/
def spacedMembers (g : Spacing) (level : Nat) : List (String × Value) → List Char
  | [] => g.gap level ++ ['\x7d']
  | (k, v) :: rest =>
      ',' :: (g.gap (level + 1) ++ (quote k ++ ':' :: (g.colon ++
        (v.spaced g (level + 1) ++ spacedMembers g level rest))))

end

mutual

theorem Value.spaced_none (level : Nat) : (v : Value) → v.spaced .none level = v.compactChars
  | .null | .bool _ | .number _ | .string _ | .array [] | .object [] => by rw [Value.spaced] <;> nofun
  | .array (v :: rest) => by
      rw [Value.spaced, Value.compactChars, v.spaced_none, spacedItems_none level rest]
      rfl
  | .object ((_, v) :: rest) => by
      rw [Value.spaced, Value.compactChars, v.spaced_none, spacedMembers_none level rest]
      rfl

theorem spacedItems_none (level : Nat) :
    (items : List Value) → spacedItems .none level items = compactItems items
  | [] => rfl
  | v :: rest => by
      rw [spacedItems, compactItems, v.spaced_none, spacedItems_none level rest]
      rfl

theorem spacedMembers_none (level : Nat) :
    (members : List (String × Value)) → spacedMembers .none level members = compactMembers members
  | [] => rfl
  | (_, v) :: rest => by
      rw [spacedMembers, compactMembers, v.spaced_none, spacedMembers_none level rest]
      rfl

end

mutual

theorem Value.spaced_lines (level : Nat) : (v : Value) → v.spaced .lines level = v.prettyChars level
  | .null | .bool _ | .number _ | .string _ | .array [] | .object [] => by
      rw [Value.spaced, Value.prettyChars] <;> nofun
  | .array (v :: rest) => by
      rw [Value.spaced, Value.prettyChars, v.spaced_lines, spacedItems_lines level rest]
      rfl
  | .object ((_, v) :: rest) => by
      rw [Value.spaced, Value.prettyChars, v.spaced_lines, spacedMembers_lines level rest]
      rfl

theorem spacedItems_lines (level : Nat) :
    (items : List Value) → spacedItems .lines level items = prettyItems level items
  | [] => rfl
  | v :: rest => by
      rw [spacedItems, prettyItems, v.spaced_lines, spacedItems_lines level rest]
      rfl

theorem spacedMembers_lines (level : Nat) :
    (members : List (String × Value)) →
      spacedMembers .lines level members = prettyMembers level members
  | [] => rfl
  | (_, v) :: rest => by
      rw [spacedMembers, prettyMembers, v.spaced_lines, spacedMembers_lines level rest]
      rfl

end

end Json

end CurlyTemplate
