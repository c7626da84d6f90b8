import CurlyTemplate.Proofs.Document.Stability
import CurlyTemplate.Proofs.Syntax.Depth

/-!
# What is written is accepted

The text that is written for a lowered document is decoded again, unless the document now
nests deeper than the reader goes; then it is of this that decoding complains
(`Document.ofText_lowerText`). Lowering makes a tree deeper: an element inside an element
is two levels down, a block inside a block three.
-/

namespace CurlyTemplate

open Json (Number Numeral Value)

namespace Json

/-- The double that the text of a double is read as. -/
def reread (x : Float) : Float :=
  match Numeral.read (doubleText x) with
  | .ok (.float y, _) => y
  | _ => x

theorem Number.read_text {n : Number} (h : n.Fits) :
    Numeral.read n.text = .ok (n.mapDouble reread, []) := by
  cases n with
  | int n => exact Numeral.read_signedNumeral h
  | float x =>
      obtain ⟨y, hy⟩ := exists_read_doubleText h
      have hreread : reread x = y := by rw [reread, hy]
      rw [Number.text, hy, Number.mapDouble, hreread]

theorem Value.readsAs_reread {v : Value} (h : v.Holds Number.Fits) :
    v.ReadsAs (Number.mapDouble reread) := fun n hn => Number.read_text (h n hn)

end Json

theorem Decode.ofText_eq_error {α : Type} {decode : Decoder α} {text : String} {error : Error}
    (h : decode .streamed (Json.readValue text.length Json.nestingLimit text.toList).1 =
      .error error) : Decode.ofText decode text = .error error := by
  have hreading : (Json.Reading.ofText Json.nestingLimit text).1 =
      (Json.readValue text.length Json.nestingLimit text.toList).1 := by
    rw [Json.Reading.ofText]
    split <;> next heq => rw [heq]
  rw [← hreading] at h
  rw [Decode.ofText]
  simp only [h]
  rfl

namespace Document

/-- A document that nests no deeper than the reader goes is decoded from its text, with its
doubles as they are read. -/
theorem ofText_of_nesting_le {d : Document} (h : d.WellFormed Number.Fits)
    (hnesting : d.encode.nesting ≤ 127) :
    ofText d.encode.compact = .ok (d.mapDoubles Json.reread) := by
  have hread := Json.ofText_spaced (Json.toList_compact_eq_spaced _)
    (Json.Value.readsAs_reread h.1) hnesting
  rw [← encode_mapDoubles] at hread
  refine Decode.ofText_eq_ok hread (takes_document _ ?_ ?_)
  · rw [encode_mapDoubles]
    exact d.encode.nesting_mapNumbers_le (Nat.le_succ_of_le hnesting)
  · rw [extras_mapDoubles]
    exact Extra.forall_proper_map h.2

theorem ofText_of_lt_nesting {d : Document} (h : d.WellFormed Number.Fits)
    (hnesting : 127 < d.encode.nesting) :
    ofText d.encode.compact = .error (.malformed .recursionLimit) := by
  have htext := Json.toList_compact_eq_spaced d.encode
  have hsize : (d.encode.spaced .none 0).length ≤ d.encode.compact.length :=
    Nat.le_of_eq (by rw [← htext, String.length_toList])
  refine Decode.ofText_eq_error ?_
  have hlevels : 123 ≤ Json.nestingLimit := by decide
  have hdeep := document_of_deep d h.2 (Json.Value.readsAs_reread h.1) hnesting hlevels hsize []
    .streamed
  rwa [List.append_nil, ← htext] at hdeep

/-- What is written for a text is accepted again if it nests at most 127 levels, and it is
refused for its nesting and nothing else if it nests deeper. -/
theorem ofText_lowerText {text out : String} (h : lowerText text = .ok out) :
    ∃ d, ofText text = .ok d ∧ out = d.lower.encode.compact ∧
      (d.lower.encode.nesting ≤ 127 →
        ∃ e again, ofText out = .ok e ∧ lowerText out = .ok again) ∧
      (127 < d.lower.encode.nesting →
        ofText out = .error (.malformed .recursionLimit) ∧
          lowerText out = .error (.malformed .recursionLimit)) := by
  obtain ⟨d, hd, hout⟩ := bind_eq_ok_iff.mp h
  obtain rfl : d.lower.encode.compact = out := Except.ok.inj hout
  have hfits := wellFormed_lower_of_ofText hd
  refine ⟨d, hd, rfl, fun hnesting => ?_, fun hnesting => ?_⟩
  · have hread := ofText_of_nesting_le hfits hnesting
    exact ⟨_, _, hread, lowerText_of_ofText hread⟩
  · have hread := ofText_of_lt_nesting hfits hnesting
    refine ⟨hread, ?_⟩
    rw [lowerText, hread]
    rfl

/-- Components inside one another. -/
def boxes : Nat → List Statement
  | 0 => []
  | n + 1 => [.element { Build.element "Box" .synthetic with children := boxes n }]

/-- A document of components inside one another. -/
def nested (n : Nat) : Document := ⟨none, none, Build.program (boxes n) []⟩

theorem readsBack_synthetic : Span.synthetic.encode.Holds Number.ReadsBack := by
  have hint (n : Int) (h : 0 ≤ n ∧ n ≤ 1) : (Number.int n).ReadsBack :=
    Number.readsBack_int ⟨by omega, by omega⟩
  rw [Span.holds_encode, Position.holds_encode, Position.holds_encode]
  exact ⟨⟨hint 1 (by decide), hint 0 (by decide)⟩, hint 1 (by decide), hint 0 (by decide)⟩

theorem wellFormed_boxes (n : Nat) : ∀ s ∈ boxes n, s.WellFormed Number.ReadsBack := by
  induction n with
  | zero => exact nofun
  | succ n ih =>
      refine List.forall_mem_singleton.mpr (Statement.wellFormed_element.mpr ?_)
      exact ⟨nofun, nofun, ih, readsBack_synthetic, Extra.wellFormed_nil _⟩

theorem ofText_nested {n : Nat} (h : (nested n).encode.nesting ≤ 127) :
    ofText (nested n).encode.compact = .ok (nested n) := by
  have hnested : (nested n).WellFormed Number.ReadsBack :=
    wellFormed_iff.mpr (Program.wellFormed_iff.mpr ⟨wellFormed_boxes n, readsBack_synthetic⟩)
  exact ofText_of_spaced (Json.toList_compact_eq_spaced _) hnested.2 hnested.1 h

theorem ofText_lowerText_nested :
    ∃ e again, ofText (nested 40).lower.encode.compact = .ok e ∧
      lowerText (nested 40).lower.encode.compact = .ok again := by
  have hread : ofText (nested 40).encode.compact = .ok (nested 40) :=
    ofText_nested (by decide +kernel)
  obtain ⟨d, hd, -, haccepted, -⟩ := ofText_lowerText (lowerText_of_ofText hread)
  obtain rfl : nested 40 = d := Except.ok.inj (hread.symm.trans hd)
  exact haccepted (by decide +kernel)

/-- One more component, and what is written nests 128 levels deep. -/
theorem lowerText_nested_refused :
    lowerText (nested 41).encode.compact = .ok (nested 41).lower.encode.compact ∧
      ofText (nested 41).lower.encode.compact = .error (.malformed .recursionLimit) := by
  have hread : ofText (nested 41).encode.compact = .ok (nested 41) :=
    ofText_nested (by decide +kernel)
  exact ⟨lowerText_of_ofText hread,
    ofText_of_lt_nesting (wellFormed_lower_of_ofText hread) (by decide +kernel)⟩

end Document

end CurlyTemplate
