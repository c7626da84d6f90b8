import CurlyTemplate.Proofs.Source.Locating
import Mathlib.Data.List.TakeWhile

/-!
# Positions by counting

The place of an offset in a text, counted from the text before it: one line more than
there are line ends, and as many columns as characters stand behind the last of them. A
reader who goes through the text stands there too (`behind_origin`), so the text between
the places of two offsets is the slice between the offsets (`textOf?_ofText_slice`). How
the line ends were written makes no difference to a source (`ofText_unifyLineEnds`).
-/

namespace CurlyTemplate

/-- How many line ends a text has. A carriage return with a line feed behind it is one. -/
def countLineEnds : List Char → Nat
  | [] => 0
  | '\r' :: '\n' :: rest => countLineEnds rest + 1
  | c :: rest => if c = '\r' ∨ c = '\n' then countLineEnds rest + 1 else countLineEnds rest

/-- A character that no line end has. -/
def isLineChar (c : Char) : Bool := c != '\r' && c != '\n'

theorem isLineChar_iff {c : Char} : isLineChar c = true ↔ ¬ (c = '\r' ∨ c = '\n') := by
  simp [isLineChar]

/-- The characters behind the last line end of a text. -/
def lastLine (s : List Char) : List Char := (s.reverse.takeWhile isLineChar).reverse

/-- The place of an offset, counted from the text before it. -/
def Position.after (before : List Char) : Position :=
  ⟨1 + countLineEnds before, (lastLine before).length⟩

section Counting

variable {c : Char} {s : List Char}

theorem countLineEnds_single (hc : c = '\r' ∨ c = '\n') (h : ¬ MeetInLineEnd [c] s) :
    countLineEnds (c :: s) = countLineEnds s + 1 := by
  rw [countLineEnds.eq_3 _ _ (not_pair_of_single h), if_pos hc]

theorem countLineEnds_char (hc : ¬ (c = '\r' ∨ c = '\n')) :
    countLineEnds (c :: s) = countLineEnds s := by
  rw [countLineEnds.eq_3 _ _ (not_pair_of_char hc), if_neg hc]

theorem countLineEnds_eq_zero_iff (s : List Char) :
    countLineEnds s = 0 ↔ ∀ c ∈ s, isLineChar c = true := by
  induction s using lineInduction with
  | nil => simp [countLineEnds]
  | pair s _ => simp [countLineEnds, isLineChar]
  | single c s hc h _ =>
      rw [countLineEnds_single hc h, List.forall_mem_cons, isLineChar_iff]
      exact iff_of_false (Nat.succ_ne_zero _) fun hall => hall.1 hc
  | char c s hc ih =>
      rw [countLineEnds_char hc, ih, List.forall_mem_cons, and_iff_right (isLineChar_iff.mpr hc)]

theorem takeWhile_reverse_eq_self_iff :
    s.reverse.takeWhile isLineChar = s.reverse ↔ countLineEnds s = 0 := by
  rw [List.takeWhile_eq_self_iff, countLineEnds_eq_zero_iff]
  simp

theorem lastLine_eq_self (h : countLineEnds s = 0) : lastLine s = s := by
  rw [lastLine, takeWhile_reverse_eq_self_iff.mpr h, List.reverse_reverse]

/-- A character in front belongs to the last line only where no line has ended. -/
theorem lastLine_cons (h : countLineEnds s ≠ 0) : lastLine (c :: s) = lastLine s := by
  rw [lastLine, List.reverse_cons, List.takeWhile_append, if_neg, lastLine]
  intro hlength
  exact h (takeWhile_reverse_eq_self_iff.mp ((List.takeWhile_prefix _).eq_of_length hlength))

theorem lastLine_of_lineEnd (hc : c = '\r' ∨ c = '\n') : lastLine (c :: s) = lastLine s := by
  have hstop : ¬ isLineChar c = true := fun h => isLineChar_iff.mp h hc
  by_cases hs : countLineEnds s = 0
  · rw [lastLine, List.reverse_cons, List.takeWhile_append, takeWhile_reverse_eq_self_iff.mpr hs,
      List.takeWhile_cons_of_neg hstop]
    simp [lastLine_eq_self hs]
  · exact lastLine_cons hs

end Counting

namespace Position

/-- The reader's account from any place on: his column goes on from there as long as no
line has ended. -/
theorem behind_eq (s : List Char) (p : Position) :
    p.behind s =
      ⟨p.line + countLineEnds s,
        (if countLineEnds s = 0 then p.column else 0) + (lastLine s).length⟩ := by
  induction s using lineInduction generalizing p with
  | nil => rfl
  | pair s ih =>
      rw [behind, ih, lastLine_of_lineEnd (.inl rfl), lastLine_of_lineEnd (.inr rfl), countLineEnds]
      simp [Nat.add_assoc, Nat.add_comm 1]
  | single c s hc h ih =>
      rw [behind_single p hc h, ih, lastLine_of_lineEnd hc, countLineEnds_single hc h]
      simp [Nat.add_assoc, Nat.add_comm 1]
  | char c s hc ih =>
      rw [behind_char p hc, ih, countLineEnds_char hc]
      by_cases hs : countLineEnds s = 0
      · have hcs : countLineEnds (c :: s) = 0 := (countLineEnds_char hc).trans hs
        simp [hs, lastLine_eq_self hs, lastLine_eq_self hcs, Nat.add_assoc, Nat.add_comm 1]
      · simp [hs, lastLine_cons hs]

theorem behind_origin (s : List Char) : origin.behind s = after s := by
  simp [behind_eq, origin, after]

end Position

theorem splitLines_unifyLineEnds (s : List Char) : splitLines (unifyLineEnds s) = splitLines s := by
  have hfeed (t : List Char) : ¬ MeetInLineEnd ['\n'] t := fun h => nomatch h.1
  induction s using lineInduction with
  | nil => rfl
  | pair s ih => rw [unifyLineEnds, splitLines_single (.inr rfl) (hfeed _), ih, splitLines]
  | single c s hc h ih =>
      rw [unifyLineEnds_single hc h, splitLines_single (.inr rfl) (hfeed _), ih,
        splitLines_single hc h]
  | char c s hc ih =>
      obtain ⟨first, others, hs⟩ := List.exists_cons_of_ne_nil (splitLines_ne_nil s)
      rw [unifyLineEnds_char hc, splitLines_char hc (ih.trans hs), splitLines_char hc hs]

theorem unifyLineEnds_eq_nil_iff (s : List Char) : unifyLineEnds s = [] ↔ s = [] := by
  fun_cases unifyLineEnds s <;> simp

namespace Source

theorem ofText_unifyLineEnds (s : List Char) :
    ofText (some (String.ofList (unifyLineEnds s))) = ofText (some (String.ofList s)) := by
  have hempty : (String.ofList (unifyLineEnds s)).isEmpty = (String.ofList s).isEmpty := by
    rw [Bool.eq_iff_iff]
    simpa using unifyLineEnds_eq_nil_iff s
  simp only [ofText, hempty, String.toList_ofList, splitLines_unifyLineEnds]

/-- A span between the places of two offsets, neither inside of a line end, covers the slice
between the offsets, with line feeds for line ends. A source of the same text with line
feeds for line ends is the same source. -/
theorem textOf?_ofText_slice (text : List Char) :
    (∀ i j span, text ≠ [] → i ≤ j → j ≤ text.length →
      ¬ MeetInLineEnd (text.take i) (text.drop i) →
      ¬ MeetInLineEnd (text.take j) (text.drop j) →
      span.isSynthetic = false → span.start = .after (text.take i) →
      span.stop = .after (text.take j) →
      (ofText (some (String.ofList text))).textOf? span =
        some (unifyLineEnds ((text.take j).drop i))) ∧
    ofText (some (String.ofList (unifyLineEnds text))) = ofText (some (String.ofList text)) := by
  refine ⟨fun i j span hne hij hj hstart hstop hspan hfirst hlast => ?_,
    ofText_unifyLineEnds text⟩
  have hbefore : text.take i ++ (text.take j).drop i = text.take j := by
    have htake : (text.take j).take i = text.take i := by rw [List.take_take, Nat.min_eq_left hij]
    rw [← htake, List.take_append_drop]
  have hwhole : text.take i ++ (text.take j).drop i ++ text.drop j = text := by
    rw [hbefore, List.take_append_drop]
  have hcovers : span.Covers (text.take i) ((text.take j).drop i) := by
    refine ⟨hspan, ?_, ?_⟩
    · rw [hfirst, Position.behind_origin]
    · rw [hlast, hbefore, Position.behind_origin]
  have hmeet : ¬ MeetInLineEnd (text.take i) ((text.take j).drop i) := by
    rintro ⟨hreturn, hfeed⟩
    refine hstart ⟨hreturn, ?_⟩
    obtain ⟨more, hmore⟩ := List.head?_eq_some_iff.mp hfeed
    rw [hmore, List.append_assoc] at hwhole
    rw [← hwhole, List.drop_left' (List.length_take_of_le (Nat.le_trans hij hj))]
    rfl
  have hne' : text.take i ++ (text.take j).drop i ++ text.drop j ≠ [] := by rwa [hwhole]
  have htext := textOf?_ofText hcovers hne' hmeet (by rwa [hbefore])
  rwa [hwhole] at htext

/-- The second line with its end, in a text with line ends of two kinds. -/
theorem textOf?_ofText_slice_secondLine :
    let text := "a\r\nbc\rd".toList
    let span := Span.between ⟨2, 0⟩ ⟨3, 0⟩
    (¬ MeetInLineEnd (text.take 3) (text.drop 3) ∧ ¬ MeetInLineEnd (text.take 6) (text.drop 6) ∧
      span.start = .after (text.take 3) ∧ span.stop = .after (text.take 6)) ∧
      (ofText (some (String.ofList text))).textOf? span = some "bc\n".toList := by
  intro text span
  have hstart : ¬ MeetInLineEnd (text.take 3) (text.drop 3) := fun h => nomatch h.1
  have hstop : ¬ MeetInLineEnd (text.take 6) (text.drop 6) := fun h => nomatch h.2
  have hfirst : span.start = .after (text.take 3) := by decide
  have hlast : span.stop = .after (text.take 6) := by decide
  refine ⟨⟨hstart, hstop, hfirst, hlast⟩, ?_⟩
  exact (textOf?_ofText_slice text).1 3 6 span (by decide) (by decide) (by decide) hstart hstop rfl
    hfirst hlast

end Source

end CurlyTemplate
