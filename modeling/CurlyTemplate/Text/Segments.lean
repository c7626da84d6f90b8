/-!
# Segments of a text

A text falls into segments at a separator: `a.b` into `a` and `b`, and the empty
text into one empty segment. Joining the segments gives the text back.
-/

namespace CurlyTemplate

namespace Text

/-- The segments of a text. There is always one. -/
def segments (sep : Char) : List Char → List (List Char)
  | [] => [[]]
  | c :: rest =>
      if c = sep then [] :: segments sep rest
      else
        match segments sep rest with
        | [] => [[c]]
        | first :: others => (c :: first) :: others

/-- Segments put one behind the other with the separator between them. -/
def joinSegments (sep : Char) : List (List Char) → List Char
  | [] => []
  | [s] => s
  | s :: t :: rest => s ++ sep :: joinSegments sep (t :: rest)

theorem joinSegments_cons {sep : Char} {segments : List (List Char)} (h : segments ≠ [])
    (s : List Char) :
    joinSegments sep (s :: segments) = s ++ sep :: joinSegments sep segments := by
  cases segments with
  | nil => exact absurd rfl h
  | cons t rest => rfl

@[simp] theorem segments_nil (sep : Char) : segments sep [] = [[]] := rfl

@[simp] theorem segments_cons_self (sep : Char) (s : List Char) :
    segments sep (sep :: s) = [] :: segments sep s := by simp [segments]

theorem segments_ne_nil (sep : Char) (s : List Char) : segments sep s ≠ [] := by
  cases s with
  | nil => simp
  | cons c rest =>
      simp only [segments]
      split
      · simp
      · split <;> simp

theorem segments_cons_of_ne {sep c : Char} (h : c ≠ sep) {s first : List Char}
    {others : List (List Char)} (hs : segments sep s = first :: others) :
    segments sep (c :: s) = (c :: first) :: others := by
  simp [segments, h, hs]

/-- Nothing is lost. -/
theorem joinSegments_segments (sep : Char) (s : List Char) :
    joinSegments sep (segments sep s) = s := by
  induction s with
  | nil => rfl
  | cons c rest ih =>
      obtain ⟨first, others, hs⟩ := List.exists_cons_of_ne_nil (segments_ne_nil sep rest)
      rw [hs] at ih
      by_cases h : c = sep
      · subst h
        simp [hs, joinSegments, ih]
      · rw [segments_cons_of_ne h hs]
        cases others with
        | nil => simpa [joinSegments] using ih
        | cons t more => simpa [joinSegments] using ih

theorem not_mem_of_mem_segments {sep : Char} {s segment : List Char}
    (h : segment ∈ segments sep s) : sep ∉ segment := by
  induction s generalizing segment with
  | nil => simp_all
  | cons c rest ih =>
      obtain ⟨first, others, hs⟩ := List.exists_cons_of_ne_nil (segments_ne_nil sep rest)
      by_cases hc : c = sep
      · subst hc
        simp only [segments_cons_self, List.mem_cons] at h
        rcases h with rfl | h
        · simp
        · exact ih h
      · rw [segments_cons_of_ne hc hs] at h
        simp only [List.mem_cons] at h
        rcases h with rfl | h
        · simp only [List.mem_cons, not_or]
          exact ⟨fun he => hc he.symm, ih (by simp [hs])⟩
        · exact ih (by simp [hs, h])

/-- A text without a separator is one segment. -/
theorem segments_of_not_mem {sep : Char} {s : List Char} (h : sep ∉ s) : segments sep s = [s] := by
  induction s with
  | nil => rfl
  | cons c rest ih =>
      rw [List.mem_cons, not_or] at h
      exact segments_cons_of_ne (Ne.symm h.1) (ih h.2)

/-- At a separator the segments fall apart. -/
theorem segments_append_cons (sep : Char) (s t : List Char) :
    segments sep (s ++ sep :: t) = segments sep s ++ segments sep t := by
  induction s with
  | nil => simp
  | cons c rest ih =>
      obtain ⟨first, others, hs⟩ := List.exists_cons_of_ne_nil (segments_ne_nil sep rest)
      by_cases h : c = sep
      · subst h
        rw [List.cons_append, segments_cons_self, ih, segments_cons_self, List.cons_append]
      · rw [hs, List.cons_append] at ih
        rw [List.cons_append, segments_cons_of_ne h ih, segments_cons_of_ne h hs,
          List.cons_append]

/-- The first segment of a text: all before the first separator. -/
def headSegment (sep : Char) (s : List Char) : List Char := s.takeWhile (· ≠ sep)

end Text

end CurlyTemplate
