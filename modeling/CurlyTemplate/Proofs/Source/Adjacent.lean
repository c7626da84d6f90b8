import CurlyTemplate.Proofs.Source.Locating

/-!
# Adjacent spans

Positions come in the order in which they are read, by lines and in a line by columns. The
text between two positions is the text up to any position between them followed by the
text from there on (`textBetween_append`), and there is none from a position back to an
earlier one (`textBetween_of_le`). Columns and lines may lie beyond the text, as a line that
is missing is read as an empty one (`textBetween_congr`).
-/

namespace CurlyTemplate

namespace Position

/-- The order of reading: by lines, and in a line by columns. -/
instance : LE Position := ⟨fun p q => p.line < q.line ∨ p.line = q.line ∧ p.column ≤ q.column⟩

theorem le_iff {p q : Position} :
    p ≤ q ↔ p.line < q.line ∨ p.line = q.line ∧ p.column ≤ q.column := Iff.rfl

instance (p q : Position) : Decidable (p ≤ q) := decidable_of_iff _ le_iff.symm

theorem line_le_of_le {p q : Position} (h : p ≤ q) : p.line ≤ q.line := by
  rw [le_iff] at h
  omega

@[simp] theorem below_le_below {p q : Position} : p.below ≤ q.below ↔ p ≤ q := by
  simp [le_iff]

theorem origin_le {p : Position} (h : 1 ≤ p.line) : origin ≤ p := by
  rw [le_iff]
  simp only [origin]
  omega

/-- A position lies in the first line or below another one. -/
@[elab_as_elim]
theorem belowInduction {motive : (p : Position) → 1 ≤ p.line → Prop}
    (first : ∀ column, motive ⟨1, column⟩ (Nat.le_refl 1))
    (below : ∀ p h, motive p h → motive p.below (Nat.le_add_left 1 p.line))
    (p : Position) (h : 1 ≤ p.line) : motive p h := by
  obtain ⟨line, column⟩ := p
  induction line with
  | zero => exact absurd h (by simp)
  | succ line ih =>
      cases line with
      | zero => exact first column
      | succ line => exact below ⟨line + 1, column⟩ (Nat.le_add_left 1 line) (ih _)

end Position

namespace Source

variable {lines : List (List Char)} {a b c : Position}

/-- Only what stands in each line counts, and not where the text ends. -/
theorem textBetween_congr {others : List (List Char)}
    (h : ∀ index, lineAt lines index = lineAt others index) :
    textBetween lines a b = textBetween others a b := by
  by_cases hlines : a.line - 1 ≤ b.line - 1
  · rw [textBetween_eq_range hlines, textBetween_eq_range hlines]
    simp only [h]
  · rw [textBetween_of_lt (Nat.lt_of_not_le hlines), textBetween_of_lt (Nat.lt_of_not_le hlines)]

theorem textBetween_nil : textBetween [] a b = textBetween [[]] a b := by
  apply textBetween_congr
  intro index
  cases index <;> rfl

/-- A text may be taken to have a first line. -/
theorem exists_textBetween_cons (lines : List (List Char)) :
    ∃ line rest, ∀ a b, textBetween lines a b = textBetween (line :: rest) a b := by
  cases lines with
  | nil => exact ⟨[], [], fun _ _ => textBetween_nil⟩
  | cons line rest => exact ⟨line, rest, fun _ _ => rfl⟩

theorem drop_eq_append {first last : Nat} (h : first ≤ last) (line : List Char) :
    line.drop first = (line.take last).drop first ++ line.drop last := by
  have hsplit := List.take_append_drop (last - first) (line.drop first)
  rw [List.drop_drop, Nat.add_sub_cancel' h] at hsplit
  rw [List.drop_take, hsplit]

/-- The text between two positions, cut at a position between them. The induction is on the
position of the cut: in the first line it cuts that line, and below it the first line
stands in front of what is cut. -/
theorem textBetween_append (ha : 1 ≤ a.line) (hab : a ≤ b) (hbc : b ≤ c) :
    textBetween lines a c = textBetween lines a b ++ textBetween lines b c := by
  have hb : 1 ≤ b.line := Nat.le_trans ha (Position.line_le_of_le hab)
  have hc : 1 ≤ c.line := Nat.le_trans hb (Position.line_le_of_le hbc)
  induction b, hb using Position.belowInduction generalizing lines a c with
  | first last =>
      obtain ⟨line, rest, hlines⟩ := exists_textBetween_cons lines
      rw [hlines, hlines, hlines]
      cases a, ha using Position.belowInduction with
      | below a ha => exact absurd (Position.line_le_of_le hab) (by simp; omega)
      | first first =>
          have hfirst : first ≤ last := by simpa [Position.le_iff] using hab
          cases c, hc using Position.belowInduction with
          | first column =>
              have hlast : last ≤ column := by simpa [Position.le_iff] using hbc
              rw [textBetween_line, textBetween_line, textBetween_line,
                drop_eq_append hfirst (line.take column), List.take_take, Nat.min_eq_left hlast]
          | below c hc =>
              rw [textBetween_lines hc, textBetween_lines hc, textBetween_line,
                drop_eq_append hfirst line, List.append_assoc]
  | below b hb ih =>
      obtain ⟨line, rest, hlines⟩ := exists_textBetween_cons lines
      rw [hlines, hlines, hlines]
      cases c, hc using Position.belowInduction with
      | first column => exact absurd (Position.line_le_of_le hbc) (by simp; omega)
      | below c hc =>
          rw [Position.below_le_below] at hbc
          rw [textBetween_below hb hc]
          cases a, ha using Position.belowInduction with
          | first first =>
              have hrest : textBetween rest .origin c =
                  textBetween rest .origin b ++ textBetween rest b c :=
                ih (Nat.le_refl 1) (Position.origin_le hb) hbc hc
              rw [textBetween_lines hc, textBetween_lines hb, hrest, List.append_assoc,
                List.cons_append]
          | below a ha =>
              rw [Position.below_le_below] at hab
              rw [textBetween_below ha hc, textBetween_below ha hb]
              exact ih ha hab hbc hc

theorem textBetween_of_le (ha : 1 ≤ a.line) (hab : a ≤ b) : textBetween lines b a = [] := by
  rcases Position.le_iff.mp hab with hline | ⟨hline, hcolumn⟩
  · exact textBetween_of_lt (by omega)
  · rw [textBetween_eq_range (by omega), hline]
    simp only [Nat.sub_self, Nat.zero_add, List.range'_one, List.map_cons, List.map_nil,
      Text.joinSegments, cutLine, hline, if_true]
    exact List.drop_eq_nil_of_le (by simp; omega)

end Source

/-- A span that names the place between two positions. -/
structure Span.Reaches (span : Span) (start stop : Position) : Prop where
  isSynthetic : span.isSynthetic = false
  start : span.start = start
  stop : span.stop = stop

namespace Source

theorem textOf?_of_reaches {lines : List (List Char)} {span : Span} {a b : Position}
    (h : span.Reaches a b) :
    (⟨some lines⟩ : Source).textOf? span = some (textBetween lines a b) := by
  simp [textOf?, h.isSynthetic, h.start, h.stop]

/-- The text of a span is that of its two parts, wherever it is cut; a span whose positions
come in the opposite order has no text. -/
theorem textOf?_append {source : Source} (h : source.isAvailable = true) :
    (∀ a b c : Position, 1 ≤ a.line → a ≤ b → b ≤ c →
      ∀ whole first second : Span, whole.Reaches a c → first.Reaches a b → second.Reaches b c →
        ∃ s t, source.textOf? first = some s ∧ source.textOf? second = some t ∧
          source.textOf? whole = some (s ++ t)) ∧
    ∀ a b : Position, 1 ≤ a.line → a ≤ b →
      ∀ span : Span, span.Reaches b a → source.textOf? span = some [] := by
  obtain ⟨lines⟩ := source
  obtain ⟨lines, rfl⟩ := Option.isSome_iff_exists.mp h
  constructor
  · intro a b c ha hab hbc whole first second hwhole hfirst hsecond
    refine ⟨_, _, textOf?_of_reaches hfirst, textOf?_of_reaches hsecond, ?_⟩
    rw [textOf?_of_reaches hwhole, textBetween_append ha hab hbc]
  · intro a b ha hab span hspan
    rw [textOf?_of_reaches hspan, textBetween_of_le ha hab]

/-- From the first line, cut beyond its end, to a line beyond the text. -/
theorem textOf?_append_beyond :
    let source := ofText (some "abc\nde")
    let a : Position := ⟨1, 1⟩
    let b : Position := ⟨1, 9⟩
    let c : Position := ⟨4, 2⟩
    (source.isAvailable = true ∧ 1 ≤ a.line ∧ a ≤ b ∧ b ≤ c) ∧
      (∃ s t, source.textOf? (.between a b) = some s ∧ source.textOf? (.between b c) = some t ∧
        source.textOf? (.between a c) = some (s ++ t)) ∧
      source.textOf? (.between c b) = some [] := by
  intro source a b c
  have hsource : source.isAvailable = true := by decide
  have hab : a ≤ b := by decide
  have hbc : b ≤ c := by decide
  have hreaches (p q : Position) : (Span.between p q).Reaches p q := ⟨rfl, rfl, rfl⟩
  obtain ⟨happend, hopposite⟩ := textOf?_append hsource
  refine ⟨⟨hsource, by decide, hab, hbc⟩, ?_, ?_⟩
  · exact happend a b c (by decide) hab hbc _ _ _ (hreaches a c) (hreaches a b) (hreaches b c)
  · exact hopposite b c (by decide) hbc _ (hreaches c b)

end Source

end CurlyTemplate
