import CurlyTemplate.Proofs.Source.Lines

/-!
# Finding a text at its positions

The text between two positions is put together from lines. Read line by line
(`textBetween_below`, `textBetween_line`, `textBetween_lines`), it is what stands in the
whole text between the places where a reader has been before and behind it, with every
line end written as a line feed (`textBetween_behind`).
-/

namespace CurlyTemplate

namespace Position

/-- The same column one line further down. -/
def below (p : Position) : Position := ⟨p.line + 1, p.column⟩

@[simp] theorem line_below (p : Position) : p.below.line = p.line + 1 := rfl

@[simp] theorem column_below (p : Position) : p.below.column = p.column := rfl

theorem behindLines_below (lines : List (List Char)) (p : Position) :
    p.below.behindLines lines = (p.behindLines lines).below := by
  induction lines generalizing p with
  | nil => rfl
  | cons line rest ih =>
      cases rest with
      | nil => rfl
      | cons next more =>
          have hbelow : (⟨p.line + 1 + 1, 0⟩ : Position) = below ⟨p.line + 1, 0⟩ := rfl
          simp only [behindLines]
          rw [← ih, ← hbelow]
          rfl

theorem line_le_behindLines (lines : List (List Char)) (p : Position) :
    p.line ≤ (p.behindLines lines).line := by
  induction lines generalizing p with
  | nil => exact Nat.le_refl _
  | cons line rest ih =>
      cases rest with
      | nil => exact Nat.le_refl _
      | cons next more => exact Nat.le_of_succ_le (ih ⟨p.line + 1, 0⟩)

end Position

namespace Source

/-- A line of a text, empty beyond its end. -/
def lineAt (lines : List (List Char)) (index : Nat) : List Char := lines[index]?.getD []

variable {lines : List (List Char)} {start stop : Position}

theorem getElem?_padded (lines : List (List Char)) (first count index : Nat) :
    let covered := (lines.drop first).take count
    (covered ++ List.replicate (count - covered.length) [])[index]? =
      if index < count then some (lineAt lines (first + index)) else none := by
  intro covered
  have hlength : covered.length = min count (lines.length - first) := by simp [covered]
  by_cases hcovered : index < covered.length
  · have hcount : index < count := by omega
    have hline : first + index < lines.length := by omega
    rw [List.getElem?_append_left hcovered, if_pos hcount, lineAt]
    simp [covered, hcount, hline]
  · rw [List.getElem?_append_right (by omega), List.getElem?_replicate]
    by_cases hcount : index < count
    · have hline : lines.length ≤ first + index := by omega
      have hrest : index - covered.length < count - covered.length := by omega
      rw [if_pos hcount, if_pos hrest, lineAt, List.getElem?_eq_none hline]
      rfl
    · have hrest : ¬ index - covered.length < count - covered.length := by omega
      rw [if_neg hcount, if_neg hrest]

theorem textBetween_eq_range (h : start.line - 1 ≤ stop.line - 1) :
    textBetween lines start stop =
      Text.joinSegments '\n'
        ((List.range' (start.line - 1) (stop.line - 1 - (start.line - 1) + 1)).map fun index =>
          cutLine start stop (lineAt lines index) index) := by
  have hlines : ¬ stop.line - 1 < start.line - 1 := Nat.not_lt.mpr h
  simp only [textBetween, hlines, if_false]
  congr 1
  apply List.ext_getElem?
  intro index
  rw [List.getElem?_map, List.getElem?_map, List.getElem?_zipIdx, getElem?_padded]
  by_cases hindex : index < stop.line - 1 - (start.line - 1) + 1
  · rw [List.getElem?_range' hindex, if_pos hindex]
    simp
  · rw [if_neg hindex, List.getElem?_eq_none (by simpa using hindex)]
    rfl

theorem textBetween_of_lt (h : stop.line - 1 < start.line - 1) :
    textBetween lines start stop = [] := by
  simp only [textBetween, if_pos h]

theorem cutLine_below (hstart : 1 ≤ start.line) (hstop : 1 ≤ stop.line) (line : List Char)
    (index : Nat) :
    cutLine start.below stop.below line (index + 1) = cutLine start stop line index := by
  have hfirst : index + 1 = start.line ↔ index = start.line - 1 := by omega
  have hlast : index + 1 = stop.line ↔ index = stop.line - 1 := by omega
  simp only [cutLine, Position.line_below, Position.column_below, Nat.add_sub_cancel, hfirst, hlast]

theorem range'_succ_left (first count : Nat) :
    List.range' (first + 1) count = (List.range' first count).map (· + 1) := by
  rw [Nat.add_comm first, ← List.map_add_range']
  simp only [Nat.add_comm 1]

/-- A line in front moves the rest of a text one line down. -/
theorem textBetween_below (hstart : 1 ≤ start.line) (hstop : 1 ≤ stop.line) (line : List Char) :
    textBetween (line :: lines) start.below stop.below = textBetween lines start stop := by
  have hfirst : start.below.line - 1 = start.line - 1 + 1 := by simp; omega
  have hlast : stop.below.line - 1 = stop.line - 1 + 1 := by simp; omega
  by_cases h : start.line - 1 ≤ stop.line - 1
  · rw [textBetween_eq_range h, textBetween_eq_range (by omega), hfirst, hlast,
      range'_succ_left, List.map_map, Nat.add_sub_add_right]
    congr 1
    apply List.map_congr_left
    intro index _
    exact cutLine_below hstart hstop _ index
  · rw [textBetween_of_lt (by omega), textBetween_of_lt (by omega)]

theorem textBetween_line (line : List Char) (first last : Nat) :
    textBetween (line :: lines) ⟨1, first⟩ ⟨1, last⟩ = (line.take last).drop first := by
  rw [textBetween_eq_range (by simp)]
  rfl

/-- Text of several lines starts with the rest of its first line. -/
theorem textBetween_lines (hstop : 1 ≤ stop.line) (line : List Char) (first : Nat) :
    textBetween (line :: lines) ⟨1, first⟩ stop.below =
      line.drop first ++ '\n' :: textBetween lines .origin stop := by
  have hlast : stop.below.line - 1 = stop.line - 1 + 1 := by simp; omega
  have hcut (index : Nat) (text : List Char) :
      cutLine ⟨1, first⟩ stop.below text (index + 1) = cutLine .origin stop text index := by
    have hindex : index + 1 = stop.line ↔ index = stop.line - 1 := by omega
    simp only [cutLine, Position.line_below, Position.column_below, Nat.add_sub_cancel, hindex,
      Position.origin]
    simp
  have hmore : (List.range' (0 + 1) (stop.line - 1 + 1)).map (fun index =>
      cutLine ⟨1, first⟩ stop.below (lineAt (line :: lines) index) index) =
        (List.range' 0 (stop.line - 1 + 1)).map fun index =>
          cutLine .origin stop (lineAt lines index) index := by
    rw [range'_succ_left, List.map_map]
    apply List.map_congr_left
    intro index _
    exact hcut index _
  have hzero : cutLine ⟨1, first⟩ stop.below (lineAt (line :: lines) 0) 0 = line.drop first := by
    have hstop' : 0 ≠ stop.line := by omega
    simp [cutLine, lineAt, hstop']
  rw [textBetween_eq_range (by simp), hlast]
  simp only [Nat.sub_self, Nat.sub_zero]
  rw [List.range'_succ, List.map_cons, hmore, hzero, Text.joinSegments_cons (by simp),
    textBetween_eq_range (Nat.zero_le _)]
  rfl

theorem textBetween_behindLines_line {between : List (List Char)} (h : between ≠ [])
    (line : List Char) (behind : List (List Char)) :
    textBetween (appendLines [line] (appendLines between behind)) ⟨1, line.length⟩
      (Position.behindLines ⟨1, line.length⟩ between) = Text.joinSegments '\n' between := by
  induction between generalizing line with
  | nil => exact absurd rfl h
  | cons first more ih =>
      cases more with
      | nil =>
          simp only [appendLines, List.headD_cons, List.tail_cons, Position.behindLines]
          rw [textBetween_line, ← List.append_assoc, ← List.length_append, List.take_left,
            List.drop_left]
          rfl
      | cons next more =>
          have hnext := List.cons_ne_nil next more
          have hmore := ih hnext []
          rw [appendLines_nil_line (appendLines_ne_nil hnext behind)] at hmore
          have hstop : Position.behindLines ⟨1, line.length⟩ (first :: next :: more) =
              (Position.origin.behindLines (next :: more)).below :=
            Position.behindLines_below (next :: more) .origin
          have hone := Position.line_le_behindLines (next :: more) .origin
          rw [hstop]
          simp only [appendLines, List.headD_cons, List.tail_cons]
          rw [textBetween_lines hone, List.drop_left, Text.joinSegments_cons hnext]
          exact congrArg (fun text => first ++ '\n' :: text) hmore

theorem textBetween_behindLines {before between : List (List Char)} (hbefore : before ≠ [])
    (hbetween : between ≠ []) (behind : List (List Char)) :
    textBetween (appendLines before (appendLines between behind))
      (Position.origin.behindLines before)
      ((Position.origin.behindLines before).behindLines between) =
        Text.joinSegments '\n' between := by
  induction before with
  | nil => exact absurd rfl hbefore
  | cons line more ih =>
      cases more with
      | nil =>
          have hstart : Position.origin.behindLines [line] = ⟨1, line.length⟩ := by
            simp [Position.behindLines, Position.origin]
          rw [hstart]
          exact textBetween_behindLines_line hbetween line behind
      | cons next more =>
          have hnext := List.cons_ne_nil next more
          have hstart : Position.origin.behindLines (line :: next :: more) =
              (Position.origin.behindLines (next :: more)).below :=
            Position.behindLines_below (next :: more) .origin
          have hone := Position.line_le_behindLines (next :: more) .origin
          have hone' := Nat.le_trans hone (Position.line_le_behindLines between _)
          rw [hstart, Position.behindLines_below, appendLines_cons hnext,
            textBetween_below hone hone']
          exact ih hnext

/-- Between the places where a reader has been before and behind a piece of the text stands
the piece, with line feeds for line ends. -/
theorem textBetween_behind {before piece behind : List Char} (hstart : ¬ MeetInLineEnd before piece)
    (hstop : ¬ MeetInLineEnd (before ++ piece) behind) :
    textBetween (splitLines (before ++ piece ++ behind)) (Position.origin.behind before)
      (Position.origin.behind (before ++ piece)) = unifyLineEnds piece := by
  have hwhole : ¬ MeetInLineEnd before (piece ++ behind) := by
    cases piece with
    | nil => simpa using hstop
    | cons c piece => exact hstart
  have hpiece : ¬ MeetInLineEnd piece behind := by
    intro hmeet
    refine hstop ⟨?_, hmeet.2⟩
    rw [List.getLast?_append, hmeet.1]
    rfl
  rw [List.append_assoc, splitLines_append hwhole, splitLines_append hpiece,
    Position.behind_append hstart, Position.behind_eq_behindLines,
    Position.behind_eq_behindLines, ← joinSegments_splitLines]
  exact textBetween_behindLines (splitLines_ne_nil before) (splitLines_ne_nil piece) _

end Source

/-- The span reaches from where a reader stands before a piece of a text to where he stands
behind it. -/
structure Span.Covers (span : Span) (before piece : List Char) : Prop where
  isSynthetic : span.isSynthetic = false
  start : span.start = Position.origin.behind before
  stop : span.stop = Position.origin.behind (before ++ piece)

namespace Source

theorem textOf?_ofText {before piece behind : List Char} {span : Span}
    (h : span.Covers before piece) (hne : before ++ piece ++ behind ≠ [])
    (hstart : ¬ MeetInLineEnd before piece) (hstop : ¬ MeetInLineEnd (before ++ piece) behind) :
    (ofText (some (String.ofList (before ++ piece ++ behind)))).textOf? span =
      some (unifyLineEnds piece) := by
  have hempty : (String.ofList (before ++ piece ++ behind)).isEmpty = false := by simpa using hne
  have hlines : ofText (some (String.ofList (before ++ piece ++ behind))) =
      ⟨some (splitLines (before ++ piece ++ behind))⟩ := by
    simp only [ofText, hempty, String.toList_ofList]
    rfl
  rw [hlines]
  simp only [textOf?, h.isSynthetic, h.start, h.stop]
  exact congrArg some (textBetween_behind hstart hstop)

end Source

end CurlyTemplate
