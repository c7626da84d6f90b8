import CurlyTemplate.Proofs.Document.RoundTrip
import CurlyTemplate.Proofs.Syntax.EditedTrees

/-!
# What decoding does not look at

Two texts of which one comes from the other by edits that say nothing are both documents or
both none, and the documents are the same up to the order of further members
(`Document.ofText_of_edits`).
-/

namespace CurlyTemplate

open Decode (Agree Edit Edited FieldForm)
open Json (Members Reading Value)

/-- What is decoded of a text that only spaces follow. -/
theorem Decode.ofText_of_read {α : Type} {decode : Decode.Decoder α} {text : String} {r : Reading}
    (hread : Reading.ofText Json.nestingLimit text = (r, none)) :
    Decode.ofText decode text = decode .streamed r := by
  rw [ofText, hread]
  simp only [sound, ok_bind]
  exact bind_pure _

namespace Document

/-- However often a reading is edited, what is decoded of it looks the same. -/
theorem agree_of_edits {manner : Decode.Manner} (levels : Nat) {r r' : Reading}
    (h : Relation.EqvGen (Edited grammar (.node .document)) r r') :
    Agree Document.ordered ((schema levels).decode manner r)
      ((schema levels).decode manner r') := by
  induction h with
  | rel r r' hedit => exact (presents_document levels).respects manner r r' hedit
  | refl r => exact .refl _ _
  | symm r r' _ ih => exact ih.symm
  | trans r s t _ _ ih ih' => exact ih.trans ih'

/-- Two texts, of which one comes from the other by edits that say nothing, are both documents
or both none, and the same document up to the order of further members. A text is edited as it
is read: its arrays and objects nest no deeper than the limit, and only spaces follow it. -/
theorem ofText_of_edits {text text' : String} {r r' : Reading}
    (hread : Reading.ofText Json.nestingLimit text = (r, none))
    (hread' : Reading.ofText Json.nestingLimit text' = (r', none))
    (hedits : Relation.EqvGen (Edited grammar (.node .document)) r r') :
    ((∃ d, ofText text = .ok d) ↔ ∃ d, ofText text' = .ok d) ∧
      ∀ d d', ofText text = .ok d → ofText text' = .ok d' → d.ordered = d'.ordered := by
  have hagree : Agree Document.ordered (ofText text) (ofText text') := by
    rw [ofText, ofText, Decode.ofText_of_read hread, Decode.ofText_of_read hread']
    exact agree_of_edits Decode.levels hedits
  refine ⟨hagree.exists_ok_iff, fun d d' hd hd' => ?_⟩
  rw [hd, hd'] at hagree
  exact hagree.view_eq

/-- A document with one element in its body. The program and the document have further
members in front. -/
def around (element program document : Members) : Value :=
  .object (document ++ [("ast", .object (program ++ [("body", .array [.object element])]))])

/-- An element with two members that are no fields. -/
def noted : Members :=
  [("type", .string "ElementNode"), ("tag", .string "p"), ("a", .number (.int 1)),
    ("b", .number (.int 2))]

theorem fieldForm_ast :
    (⟨"ast", none, .node .program⟩ : FieldForm Kind) ∈ grammar.fields .document := by
  simp [grammar, Kind.fields]

theorem fieldForm_contents :
    (⟨"contents", some .null, .scalar⟩ : FieldForm Kind) ∈ grammar.fields .document := by
  simp [grammar, Kind.fields]

theorem fieldForm_body :
    (⟨"body", some (.array []), .list (.variant Kind.statements)⟩ : FieldForm Kind) ∈
      grammar.fields .program := by
  simp [grammar, Kind.fields]

/-- The element has its members the other way round, the program gets a `type` that is no name,
and the document tells that it has no contents. -/
theorem edits_noted :
    Relation.EqvGen (Edited grammar (.node .document)) (.ofValue (around noted [] []))
      (.ofValue (around noted.reverse [("type", .null)] [("contents", .null)])) := by
  have hdistinct : (around noted [] []).KeysDistinct ∧ (around noted.reverse [] []).KeysDistinct ∧
      (around noted.reverse [("type", .null)] []).KeysDistinct ∧
      (around noted.reverse [("type", .null)] [("contents", .null)]).KeysDistinct := by
    simp [around, noted, Value.KeysDistinct, Json.KeysDistinctItems, Json.KeysDistinctMembers]
  obtain ⟨hplain, hreversed, htyped, hfull⟩ := hdistinct
  have hkeys {v : Value} (h : v.KeysDistinct) : (Reading.ofValue v).KeysDistinct :=
    Reading.keysDistinct_ofValue v h
  have hperm : (Reading.ofMembers noted).Perm (Reading.ofMembers noted.reverse) := by
    rw [Reading.ofMembers_eq, Reading.ofMembers_eq]
    exact noted.reverse_perm.symm.map _
  have helement : Edit grammar (.node .document) (.ofValue (around noted [] []))
      (.ofValue (around noted.reverse [] [])) :=
    .field fieldForm_ast (.field fieldForm_body
      (@Edit.item _ _ _ [] [] _ _ none (.rearrange (.members hperm))))
  have hprogram : Edit grammar (.node .document) (.ofValue (around noted.reverse [] []))
      (.ofValue (around noted.reverse [("type", .null)] [])) :=
    .field fieldForm_ast (.ignore rfl (by decide) rfl rfl)
  have hcontents : Edit grammar (.node .document)
      (.ofValue (around noted.reverse [("type", .null)] []))
      (.ofValue (around noted.reverse [("type", .null)] [("contents", .null)])) :=
    .fill fieldForm_contents rfl
  exact .trans _ _ _ (.rel _ _ ⟨hkeys hplain, hkeys hreversed, helement⟩)
    (.trans _ _ _ (.rel _ _ ⟨hkeys hreversed, hkeys htyped, hprogram⟩)
      (.rel _ _ ⟨hkeys htyped, hkeys hfull, hcontents⟩))

theorem reads_around {element program document : Members}
    (hnumbers : ∀ n ∈ (around element program document).numbers, n = .int 1 ∨ n = .int 2)
    (hnesting : (around element program document).nesting ≤ Json.nestingLimit) :
    Reading.ofText Json.nestingLimit (around element program document).compact =
      (.ofValue (around element program document), none) := by
  refine Json.ofText_of_readsBack (Json.toList_compact_eq_spaced _) (fun n hn => ?_) hnesting
  rcases hnumbers n hn with rfl | rfl
  · exact Json.Number.readsBack_int ⟨by decide, by decide⟩
  · exact Json.Number.readsBack_int ⟨by decide, by decide⟩

theorem ofText_of_edits_noted :
    ∃ d d', ofText (around noted [] []).compact = .ok d ∧
      ofText (around noted.reverse [("type", .null)] [("contents", .null)]).compact = .ok d' ∧
      d.ordered = d'.ordered := by
  have hread : Reading.ofText Json.nestingLimit (around noted [] []).compact =
      (.ofValue (around noted [] []), none) :=
    reads_around (by simp [around, noted, Value.numbers]) (by decide)
  obtain ⟨hiff, hsame⟩ := ofText_of_edits hread
    (reads_around (by simp [around, noted, Value.numbers]) (by decide)) edits_noted
  have hdecode : (schema Decode.levels).decode .streamed (.ofValue (around noted [] [])) =
      .ok ⟨none, none, Build.program [.element { Build.element "p" .synthetic with
        extra := [("a", .number (.int 1)), ("b", .number (.int 2))] }] []⟩ := rfl
  have hd := (Decode.ofText_of_read hread).trans hdecode
  obtain ⟨d', hd'⟩ := hiff.mp ⟨_, hd⟩
  exact ⟨_, d', hd, hd', hsame _ d' hd hd'⟩

end Document

end CurlyTemplate
