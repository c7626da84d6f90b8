import CurlyTemplate.Batch.Format
import CurlyTemplate.Proofs.Document.RoundTrip
import CurlyTemplate.Proofs.Json.Doubles
import CurlyTemplate.Proofs.Lowering.NormalForm
import CurlyTemplate.Proofs.Lowering.WellFormed

/-!
# Written documents are stable

A document that was decoded and lowered is written with numbers that fit, under keys that
are read back, and lowering has nothing left to do in it. So what is written once is written
again, character for character (`Document.lowerText_stable`).
-/

namespace CurlyTemplate

open Json (Number Numeral Value)

theorem keptByDecoding_fits : KeptByDecoding Number.Fits where
  zero := ⟨by decide, by decide⟩
  one := ⟨by decide, by decide⟩
  ofInt _ h := Json.isFinite_ofInt h

namespace Document

/-- Lowering twice is lowering once, as the text of the template stays at hand. -/
theorem lower_lower (d : Document) : d.lower.lower = d.lower := by
  have hast : Component.lower (Source.ofText d.contents) d.lower.ast = d.lower.ast :=
    (Component.lower_eq_self_iff_onlyMarkup _).mpr (Component.onlyMarkup_lower d.ast)
  exact congrArg (fun ast => { d.lower with ast := ast }) hast

/-- What is written for a text has numbers that fit, under keys that are read back. -/
theorem wellFormed_lower_of_ofText {text : String} {d : Document} (h : ofText text = .ok d) :
    d.lower.WellFormed Number.Fits :=
  wellFormed_lower keptByDecoding_fits
    (wellFormed_of_ofText keptByDecoding_fits Numeral.fits_of_value? h)

theorem ofText_lower {text : String} {d : Document} (h : ofText text = .ok d)
    (hnesting : d.lower.encode.nesting ≤ 127)
    (hdoubles : ∀ x, .float x ∈ d.lower.encode.numbers →
      Numeral.read (Json.doubleText x) = .ok (.float x, [])) :
    ofText d.lower.encode.compact = .ok d.lower := by
  obtain ⟨hnumbers, hextras⟩ := wellFormed_lower_of_ofText h
  refine ofText_of_spaced (Json.toList_compact_eq_spaced _) hextras (fun n hn => ?_) hnesting
  cases n with
  | int n => exact Number.readsBack_int (hnumbers (.int n) hn)
  | float x => exact hdoubles x hn

theorem lowerText_of_ofText {text : String} {d : Document} (h : ofText text = .ok d) :
    lowerText text = .ok d.lower.encode.compact := by
  rw [lowerText, h]
  rfl

/-- What is written for a text is written again for what was written, and the template that
is printed for the text is that of the tree in what was written. -/
theorem lowerText_stable {text out : String} {d : Document} (h : ofText text = .ok d)
    (hout : lowerText text = .ok out) (hnesting : d.lower.encode.nesting ≤ 127)
    (hdoubles : ∀ x, .float x ∈ d.lower.encode.numbers →
      Numeral.read (Json.doubleText x) = .ok (.float x, [])) :
    lowerText out = .ok out ∧ ∃ e, ofText out = .ok e ∧
      ∀ settings : Batch.Settings, settings.format = .template →
        Batch.transformText settings text = .ok e.ast.print := by
  obtain rfl : d.lower.encode.compact = out :=
    Except.ok.inj ((lowerText_of_ofText h).symm.trans hout)
  have hread := ofText_lower h hnesting hdoubles
  refine ⟨?_, d.lower, hread, fun settings hformat => ?_⟩
  · rw [lowerText_of_ofText hread, lower_lower]
  · rw [Batch.transformText, h]
    simp only [ok_bind, Batch.render, hformat]
    rfl

/-- A component that is invoked with a number. -/
def sized : Document where
  moduleName := none
  contents := some "<Card @size={{0.5}} />"
  ast := Build.program [.element { Build.element "Card" (.between ⟨1, 0⟩ ⟨1, 22⟩) with
    attributes := [Build.attributeNode "@size" (.mustache (Build.mustache
      ⟨Build.number 0.5, [], Build.hash []⟩ (.between ⟨1, 12⟩ ⟨1, 19⟩)))
      (.between ⟨1, 6⟩ ⟨1, 19⟩)] }] []

/-- The places in it and the number. -/
theorem numbers_sized : (sized.encode.numbers ++ sized.lower.encode.numbers).all (fun
    | .int n => decide (0 ≤ n ∧ n ≤ 22)
    | .float x => decide (x = 0.5)) = true := by
  decide +kernel

theorem ofText_sized : ofText sized.encode.compact = .ok sized := by
  have hextras : sized.extras = [⟨Element.ownKeys, []⟩, ⟨Mustache.ownKeys, []⟩] := rfl
  refine ofText_of_spaced (Json.toList_compact_eq_spaced _) ?_ (fun n hn => ?_) (by decide +kernel)
  · rw [hextras]
    simp [Extra.Proper, Value.KeysDistinct, Json.KeysDistinctMembers]
  · have hn := List.all_eq_true.mp numbers_sized n (List.mem_append_left _ hn)
    cases n with
    | int n =>
        have hn : 0 ≤ n ∧ n ≤ 22 := of_decide_eq_true hn
        exact Number.readsBack_int ⟨by omega, by omega⟩
    | float x =>
        rw [show x = 0.5 from of_decide_eq_true hn]
        exact readsBack_half

theorem lowerText_stable_sized :
    lowerText sized.lower.encode.compact = .ok sized.lower.encode.compact ∧
      ∃ e, ofText sized.lower.encode.compact = .ok e ∧
        ∀ settings : Batch.Settings, settings.format = .template →
          Batch.transformText settings sized.encode.compact = .ok e.ast.print := by
  refine lowerText_stable ofText_sized (lowerText_of_ofText ofText_sized) (by decide +kernel)
    fun x hx => ?_
  have hx := List.all_eq_true.mp numbers_sized (.float x) (List.mem_append_right _ hx)
  rw [show x = 0.5 from of_decide_eq_true hx]
  exact readsBack_half

end Document

end CurlyTemplate
