import CurlyTemplate.Syntax.Source

/-!
# Lines and positions

Who reads a text character by character knows at each place its line and its column:
`Position.behind` is that account, kept without looking at lines as a whole. A text cut
in two has the lines of both parts, the last line of the first part going on as the first
line of the second (`splitLines_append`), unless the cut falls inside of a line end; and
the reader's account follows the lines (`Position.behind_eq_behindLines`).
-/

namespace CurlyTemplate

/-- The first place of a text. -/
def Position.origin : Position := ⟨1, 0⟩

/-- Where a reader stands behind a text that starts at `p`. -/
def Position.behind (p : Position) : List Char → Position
  | [] => p
  | '\r' :: '\n' :: rest => behind ⟨p.line + 1, 0⟩ rest
  | c :: rest =>
      if c = '\r' ∨ c = '\n' then behind ⟨p.line + 1, 0⟩ rest
      else behind ⟨p.line, p.column + 1⟩ rest

/-- A text with every line end written as a line feed. -/
def unifyLineEnds : List Char → List Char
  | [] => []
  | '\r' :: '\n' :: rest => '\n' :: unifyLineEnds rest
  | c :: rest => (if c = '\r' then '\n' else c) :: unifyLineEnds rest

/-- The two parts meet inside of a line end. -/
def MeetInLineEnd (s t : List Char) : Prop := s.getLast? = some '\r' ∧ t.head? = some '\n'

/-- A text begins with a line end of two characters, with one of a single character, or
with a character of its first line. -/
@[elab_as_elim]
theorem lineInduction {motive : List Char → Prop} (nil : motive [])
    (pair : ∀ s, motive s → motive ('\r' :: '\n' :: s))
    (single : ∀ c s, c = '\r' ∨ c = '\n' → ¬ MeetInLineEnd [c] s → motive s → motive (c :: s))
    (char : ∀ c s, ¬ (c = '\r' ∨ c = '\n') → motive s → motive (c :: s))
    (s : List Char) : motive s := by
  induction s using unifyLineEnds.induct with
  | case1 => exact nil
  | case2 s ih => exact pair s ih
  | case3 c s hpair ih =>
      by_cases hc : c = '\r' ∨ c = '\n'
      · refine single c s hc ?_ ih
        rintro ⟨hlast, hhead⟩
        obtain ⟨t, rfl⟩ := List.head?_eq_some_iff.mp hhead
        exact hpair t (by simpa using hlast) rfl
      · exact char c s hc ih

section Equations

variable {c : Char} {s : List Char}

theorem not_pair_of_single (h : ¬ MeetInLineEnd [c] s) (t : List Char) (hc : c = '\r')
    (hs : s = '\n' :: t) : False :=
  h ⟨by simp [hc], by simp [hs]⟩

theorem not_pair_of_char (h : ¬ (c = '\r' ∨ c = '\n')) (t : List Char) (hc : c = '\r')
    (_ : s = '\n' :: t) : False :=
  h (.inl hc)

theorem splitLines_single (hc : c = '\r' ∨ c = '\n') (h : ¬ MeetInLineEnd [c] s) :
    splitLines (c :: s) = [] :: splitLines s := by
  rw [splitLines.eq_3 _ _ (not_pair_of_single h), if_pos hc]

theorem behind_single (p : Position) (hc : c = '\r' ∨ c = '\n') (h : ¬ MeetInLineEnd [c] s) :
    p.behind (c :: s) = Position.behind ⟨p.line + 1, 0⟩ s := by
  rw [Position.behind.eq_3 _ _ _ (not_pair_of_single h), if_pos hc]

theorem behind_char (p : Position) (hc : ¬ (c = '\r' ∨ c = '\n')) :
    p.behind (c :: s) = Position.behind ⟨p.line, p.column + 1⟩ s := by
  rw [Position.behind.eq_3 _ _ _ (not_pair_of_char hc), if_neg hc]

theorem unifyLineEnds_single (hc : c = '\r' ∨ c = '\n') (h : ¬ MeetInLineEnd [c] s) :
    unifyLineEnds (c :: s) = '\n' :: unifyLineEnds s := by
  rw [unifyLineEnds.eq_3 _ _ (not_pair_of_single h)]
  rcases hc with rfl | rfl <;> rfl

theorem unifyLineEnds_char (hc : ¬ (c = '\r' ∨ c = '\n')) :
    unifyLineEnds (c :: s) = c :: unifyLineEnds s := by
  rw [unifyLineEnds.eq_3 _ _ (not_pair_of_char hc), if_neg fun h => hc (.inl h)]

end Equations

theorem splitLines_ne_nil (s : List Char) : splitLines s ≠ [] := by
  fun_cases splitLines s <;> simp_all

theorem splitLines_char {c : Char} (hc : ¬ (c = '\r' ∨ c = '\n')) {s first : List Char}
    {others : List (List Char)} (hs : splitLines s = first :: others) :
    splitLines (c :: s) = (c :: first) :: others := by
  rw [splitLines.eq_3 _ _ (not_pair_of_char hc), if_neg hc, hs]

/-- Read back from its lines, a text has line feeds for line ends. -/
theorem joinSegments_splitLines (s : List Char) :
    Text.joinSegments '\n' (splitLines s) = unifyLineEnds s := by
  induction s using lineInduction with
  | nil => rfl
  | pair s ih =>
      obtain ⟨first, others, hs⟩ := List.exists_cons_of_ne_nil (splitLines_ne_nil s)
      rw [hs] at ih
      simp [splitLines, unifyLineEnds, hs, Text.joinSegments, ih]
  | single c s hc h ih =>
      obtain ⟨first, others, hs⟩ := List.exists_cons_of_ne_nil (splitLines_ne_nil s)
      rw [hs] at ih
      simp [splitLines_single hc h, unifyLineEnds_single hc h, hs, Text.joinSegments, ih]
  | char c s hc ih =>
      obtain ⟨first, others, hs⟩ := List.exists_cons_of_ne_nil (splitLines_ne_nil s)
      rw [hs] at ih
      rw [splitLines_char hc hs, unifyLineEnds_char hc, ← ih]
      cases others <;> rfl

/-- The lines of a text, and behind them those of a text that goes on in the last one. -/
def appendLines : List (List Char) → List (List Char) → List (List Char)
  | [], others => others
  | [line], others => (line ++ others.headD []) :: others.tail
  | line :: next :: more, others => line :: appendLines (next :: more) others

theorem appendLines_cons {lines : List (List Char)} (h : lines ≠ []) (line : List Char)
    (others : List (List Char)) :
    appendLines (line :: lines) others = line :: appendLines lines others := by
  cases lines with
  | nil => exact absurd rfl h
  | cons next more => rfl

theorem appendLines_nil_line {others : List (List Char)} (h : others ≠ []) :
    appendLines [[]] others = others := by
  cases others with
  | nil => exact absurd rfl h
  | cons first more => rfl

theorem appendLines_ne_nil {lines : List (List Char)} (h : lines ≠ []) (others : List (List Char)) :
    appendLines lines others ≠ [] := by
  fun_cases appendLines lines others <;> simp_all

theorem not_meetInLineEnd_of_cons {c : Char} {s t : List Char}
    (h : ¬ MeetInLineEnd (c :: s) t) : ¬ MeetInLineEnd s t := by
  intro hmeet
  refine h ⟨?_, hmeet.2⟩
  rw [List.getLast?_cons, hmeet.1]
  rfl

theorem not_meetInLineEnd_append {c : Char} {s t : List Char} (h : ¬ MeetInLineEnd [c] s)
    (ht : ¬ MeetInLineEnd (c :: s) t) : ¬ MeetInLineEnd [c] (s ++ t) := by
  cases s with
  | nil => exact ht
  | cons d s => exact h

/-- The last line of the first part goes on as the first line of the second. -/
theorem splitLines_append {s t : List Char} (h : ¬ MeetInLineEnd s t) :
    splitLines (s ++ t) = appendLines (splitLines s) (splitLines t) := by
  induction s using lineInduction with
  | nil => exact (appendLines_nil_line (splitLines_ne_nil t)).symm
  | pair s ih =>
      have hs := not_meetInLineEnd_of_cons (not_meetInLineEnd_of_cons h)
      simp only [List.cons_append, splitLines]
      rw [ih hs, appendLines_cons (splitLines_ne_nil s)]
  | single c s hc hmeet ih =>
      have hs := not_meetInLineEnd_of_cons h
      rw [List.cons_append, splitLines_single hc (not_meetInLineEnd_append hmeet h),
        splitLines_single hc hmeet, ih hs, appendLines_cons (splitLines_ne_nil s)]
  | char c s hc ih =>
      have hs := not_meetInLineEnd_of_cons h
      obtain ⟨first, others, hfirst⟩ := List.exists_cons_of_ne_nil (splitLines_ne_nil s)
      have happend := ih hs
      rw [hfirst] at happend
      rw [List.cons_append, splitLines_char hc hfirst]
      cases others with
      | nil => exact splitLines_char hc happend
      | cons next more => exact splitLines_char hc happend

theorem Position.behind_append {s t : List Char} (h : ¬ MeetInLineEnd s t) (p : Position) :
    p.behind (s ++ t) = (p.behind s).behind t := by
  induction s using lineInduction generalizing p with
  | nil => rfl
  | pair s ih => exact ih (not_meetInLineEnd_of_cons (not_meetInLineEnd_of_cons h)) _
  | single c s hc hmeet ih =>
      rw [List.cons_append, behind_single p hc (not_meetInLineEnd_append hmeet h),
        behind_single p hc hmeet, ih (not_meetInLineEnd_of_cons h)]
  | char c s hc ih =>
      rw [List.cons_append, behind_char p hc, behind_char p hc,
        ih (not_meetInLineEnd_of_cons h)]

/-- Where a reader stands behind lines that follow one another. -/
def Position.behindLines (p : Position) : List (List Char) → Position
  | [] => p
  | [line] => ⟨p.line, p.column + line.length⟩
  | _ :: next :: more => behindLines ⟨p.line + 1, 0⟩ (next :: more)

theorem Position.behindLines_cons {lines : List (List Char)} (h : lines ≠ []) (p : Position)
    (line : List Char) :
    p.behindLines (line :: lines) = Position.behindLines ⟨p.line + 1, 0⟩ lines := by
  cases lines with
  | nil => exact absurd rfl h
  | cons next more => rfl

theorem Position.behindLines_cons_char (p : Position) (c : Char) (first : List Char)
    (others : List (List Char)) :
    p.behindLines ((c :: first) :: others) =
      Position.behindLines ⟨p.line, p.column + 1⟩ (first :: others) := by
  cases others with
  | nil => simp [behindLines, Nat.add_assoc, Nat.add_comm 1]
  | cons next more => rfl

/-- The reader's account follows the lines. -/
theorem Position.behind_eq_behindLines (s : List Char) (p : Position) :
    p.behind s = p.behindLines (splitLines s) := by
  induction s using lineInduction generalizing p with
  | nil => rfl
  | pair s ih =>
      rw [splitLines, behindLines_cons (splitLines_ne_nil s)]
      exact ih _
  | single c s hc h ih =>
      rw [behind_single p hc h, splitLines_single hc h, behindLines_cons (splitLines_ne_nil s)]
      exact ih _
  | char c s hc ih =>
      obtain ⟨first, others, hs⟩ := List.exists_cons_of_ne_nil (splitLines_ne_nil s)
      rw [behind_char p hc, splitLines_char hc hs, behindLines_cons_char, ih, hs]

end CurlyTemplate
