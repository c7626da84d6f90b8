import CurlyTemplate.Proofs.Json.ReadBack
import CurlyTemplate.Proofs.Json.Scaling
import CurlyTemplate.Proofs.Syntax.RoundTrip

/-!
# Documents read back

A document that is written as JSON, on one line or on many, is decoded from that text as it
was (`Document.ofText_encode`). Integers need to fit 64 bits and doubles to be finite, as
there are no others in a document; of doubles it is assumed that they are read back from
their numerals.
-/

namespace CurlyTemplate

open Json (Number Numeral Value)

namespace Json

/-- A number that is read back from its numeral. -/
def Number.ReadsBack (n : Number) : Prop := Numeral.read n.text = .ok (n, [])

theorem Number.readsBack_int {n : Int} (h : Numeral.Fits n) : (Number.int n).ReadsBack :=
  Numeral.read_signedNumeral h

/-- The text of a value, whatever its spaces, is read as the value. -/
theorem ofText_of_readsBack {v : Value} {g : Spacing} {levels : Nat} {text : String}
    (htext : text.toList = v.spaced g 0) (hnumbers : ∀ n ∈ v.numbers, n.ReadsBack)
    (hlevels : v.nesting ≤ levels) : Reading.ofText levels text = (.ofValue v, none) := by
  have hread := ofText_spaced (f := id) htext hnumbers hlevels
  have hsame : v.mapNumbers id = v := v.mapNumbers_eq_self fun _ _ => rfl
  rwa [hsame] at hread

end Json

theorem Decode.ofText_eq_ok {α : Type} {decode : Decoder α} {v : Value} {a : α} {text : String}
    (hread : Json.Reading.ofText Json.nestingLimit text = (.ofValue v, none))
    (h : Takes decode v a) : Decode.ofText decode text = .ok a := by
  rw [Decode.ofText, hread]
  exact bind_eq_ok_iff.mpr ⟨a, h .streamed, rfl⟩

namespace Document

theorem ofText_of_spaced {d : Document} {g : Json.Spacing} {text : String}
    (htext : text.toList = d.encode.spaced g 0) (hextras : ∀ x ∈ d.extras, x.Proper)
    (hnumbers : ∀ n ∈ d.encode.numbers, n.ReadsBack) (hnesting : d.encode.nesting ≤ 127) :
    ofText text = .ok d :=
  Decode.ofText_eq_ok (Json.ofText_of_readsBack htext hnumbers hnesting)
    (takes_document d (Nat.le_succ_of_le hnesting) hextras)

/-- A document is decoded from its compact and from its pretty text. Its nodes keep their own
keys to themselves, its integers fit 64 bits and its doubles are finite and are read back from
their numerals. -/
theorem ofText_encode (d : Document) (hextras : ∀ x ∈ d.extras, x.Proper)
    (hints : ∀ n, .int n ∈ d.encode.numbers → Numeral.Fits n)
    (hfinite : ∀ x, .float x ∈ d.encode.numbers → x.isFinite = true)
    (hdoubles : ∀ x, .float x ∈ d.encode.numbers → x.isFinite = true →
      Numeral.read (Json.doubleText x) = .ok (.float x, []))
    (hnesting : d.encode.nesting ≤ 127) :
    ofText d.encode.compact = .ok d ∧ ofText d.encode.pretty = .ok d := by
  have hnumbers (n) (hn : n ∈ d.encode.numbers) : n.ReadsBack := by
    cases n with
    | int n => exact Number.readsBack_int (hints n hn)
    | float x => exact hdoubles x hn (hfinite x hn)
  exact ⟨ofText_of_spaced (Json.toList_compact_eq_spaced _) hextras hnumbers hnesting,
    ofText_of_spaced (Json.toList_pretty_eq_spaced _) hextras hnumbers hnesting⟩

/-- A document with a member that is no field, and with a number. -/
def annotated : Document where
  moduleName := none
  contents := some "<p>{{half 0.5}}</p>"
  ast := Build.program [.element { Build.element "p" (.between ⟨1, 0⟩ ⟨1, 19⟩) with
    children := [.mustache (Build.mustache
      ⟨Build.path "half", [Build.number 0.5], Build.hash []⟩ (.between ⟨1, 3⟩ ⟨1, 15⟩))]
    extra := [("note", .array [.number (.int (-1)), .null])] }] []

theorem readsBack_half : (Number.float 0.5).ReadsBack := by
  have htext : Json.doubleText 0.5 = ['0', '.', '5'] := by decide +kernel
  have hvalue : Numeral.value? ⟨false, [0], some [5], none⟩ = some (.float 0.5) := by
    have hscale : Numeral.scale 1 (Float.ofScientific 5 false 0) (-1) = some 0.5 := by
      rw [Numeral.scale_of_neg (by decide) (by decide)]
      decide +kernel
    exact congrArg (Option.map Number.float) hscale
  rw [Number.ReadsBack, Number.text, htext]
  exact Json.Numeral.read_eq_ok_iff.mpr ⟨_, rfl, hvalue⟩

/-- The places in it, the number in a further member, and the one number literal. -/
theorem numbers_annotated : annotated.encode.numbers.all (fun
    | .int n => decide (-1 ≤ n ∧ n ≤ 19)
    | .float x => decide (x = 0.5)) = true := by
  decide +kernel

theorem extras_annotated : ∀ x ∈ annotated.extras, x.Proper := by
  have hextras : annotated.extras = [⟨Element.ownKeys,
      [("note", .array [.number (.int (-1)), .null])]⟩, ⟨Mustache.ownKeys, []⟩] := rfl
  rw [hextras]
  simp [Extra.Proper, Element.ownKeys, Value.KeysDistinct, Json.KeysDistinctItems,
    Json.KeysDistinctMembers]

theorem ofText_encode_annotated :
    ofText annotated.encode.compact = .ok annotated ∧
      ofText annotated.encode.pretty = .ok annotated := by
  have hnumbers := List.all_eq_true.mp numbers_annotated
  have hdoubles (x : Float) (hx : .float x ∈ annotated.encode.numbers) : x = 0.5 :=
    of_decide_eq_true (hnumbers (.float x) hx)
  refine ofText_encode annotated extras_annotated (fun n hn => ?_) (fun x hx => ?_)
    (fun x hx _ => ?_) (by decide +kernel)
  · have hn : -1 ≤ n ∧ n ≤ 19 := of_decide_eq_true (hnumbers (.int n) hn)
    exact ⟨by omega, by omega⟩
  · rw [hdoubles x hx]
    decide +kernel
  · rw [hdoubles x hx]
    exact readsBack_half

end Document

end CurlyTemplate
