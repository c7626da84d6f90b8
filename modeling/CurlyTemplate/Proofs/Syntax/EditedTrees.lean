import CurlyTemplate.Proofs.Decode.EditedUnions
import CurlyTemplate.Proofs.Syntax.Grammar
import CurlyTemplate.Proofs.Syntax.Ordered
import CurlyTemplate.Proofs.Syntax.RoundTrip

/-!
# Edited trees

Each schema is that of its kind of node (`presents_…`), so that the decoders of expressions,
statements and documents respect all edits along the grammar. What is decoded is the same but
for the order of further members.
-/

namespace CurlyTemplate

open Json (Members orderedMembers orderedMembers_insert)
open Decode (Decoder FieldDecoder FieldForm Fits Respects Schema Takes Variant fits_optional
  fits_required independent_of_set keptApart_of_set keepsApart_of_placed requiredField
  optionalField respects_boolean respects_double respects_natural respects_string
  respects_strings respects_union takes_boolean takes_optional_null)

theorem takes_nil {α : Type} (item : Decoder α) : Takes (Decode.list item) (.array []) [] :=
  fun _ => rfl

/-! ### Places -/

theorem presents_position : Position.schema.Presents grammar .position id :=
  Schema.presents_closed rfl ["line", "column"] rfl (by decide)
    (.cons (fits_required respects_natural _ fun _ _ => rfl)
      (.cons (fits_required respects_natural _ fun _ _ => rfl) .nil))
    (by simp [Position.schema, requiredField, independent_of_set])

theorem presents_span : Span.schema.Presents grammar .span id :=
  Schema.presents_closed rfl ["source", "start", "end"] rfl (by decide)
    (.cons (fits_optional respects_string.optional_id _ (takes_optional_null _)
        (fun _ _ => rfl) rfl)
      (.cons (fits_required presents_position.respects _ fun _ _ => rfl)
        (.cons (fits_required presents_position.respects _ fun _ _ => rfl) .nil)))
    (by simp [Span.schema, requiredField, optionalField, independent_of_set])

/-- The place, which is the last field of a node. -/
theorem fits_loc {σ : Type} {view : σ → σ} {blank : σ} {set : Span → σ → σ}
    (hset : ∀ loc s, view (set loc s) = set loc (view s))
    (hblank : set .synthetic blank = blank) :
    List.Forall₂ (Fits grammar view blank) [Kind.locField] [locField set] :=
  .cons (fits_optional presents_span.respects _ (takes_span .synthetic) hset hblank) .nil

/-! ### Expressions -/

theorem presents_path : Path.schema.Presents grammar .path id :=
  Schema.presents_closed rfl ["original", "this", "data", "parts", "loc"] rfl (by decide)
    (.cons (fits_required respects_string _ fun _ _ => rfl)
      (.cons (fits_optional respects_boolean _ (takes_boolean false) (fun _ _ => rfl) rfl)
        (.cons (fits_optional respects_boolean _ (takes_boolean false) (fun _ _ => rfl) rfl)
          (.cons (fits_optional respects_strings _ (takes_nil _) (fun _ _ => rfl) rfl)
            (fits_loc (fun _ _ => rfl) rfl)))))
    (by simp [Path.schema, requiredField, optionalField, locField, independent_of_set])

theorem presents_literal {α : Type} {kind : Kind} {decode : Decoder α}
    (hfields : kind.fields = [⟨"value", none, .scalar⟩, Kind.locField])
    (h : Respects grammar .scalar decode id) (name : String) (blank : α) :
    (literalSchema name decode blank).Presents grammar kind id := by
  refine Schema.presents_closed rfl ["value", "loc"] rfl (by decide) ?_
    (by simp [literalSchema, requiredField, optionalField, locField, independent_of_set])
  rw [show grammar.fields kind = _ from hfields]
  exact .cons (fits_required h _ fun _ _ => rfl) (fits_loc (fun _ _ => rfl) rfl)

theorem presents_word {kind : Kind} (hfields : kind.fields = [Kind.locField]) (name : String) :
    (wordSchema name).Presents grammar kind id := by
  refine Schema.presents_closed rfl ["loc"] rfl (by decide) ?_ (List.pairwise_singleton _ _)
  rw [show grammar.fields kind = _ from hfields]
  exact fits_loc (fun _ _ => rfl) rfl

section Calls

variable {expression : Decoder Expression}

theorem presents_pair (h : Respects grammar (.variant Kind.expressions) expression id) :
    (HashPair.schema expression).Presents grammar .pair id :=
  Schema.presents_closed rfl ["key", "value", "loc"] rfl (by decide)
    (.cons (fits_required respects_string _ fun _ _ => rfl)
      (.cons (fits_required h _ fun _ _ => rfl) (fits_loc (fun _ _ => rfl) rfl)))
    (by simp [HashPair.schema, requiredField, optionalField, locField, independent_of_set])

theorem presents_hash (h : Respects grammar (.variant Kind.expressions) expression id) :
    (Hash.schema expression).Presents grammar .hash id :=
  Schema.presents_closed rfl ["pairs", "loc"] rfl (by decide)
    (.cons (fits_optional (presents_pair h).respects.list_id _ (takes_nil _) (fun _ _ => rfl) rfl)
      (fits_loc (fun _ _ => rfl) rfl))
    (by simp [Hash.schema, optionalField, locField, independent_of_set])

/-- The fields of a call and then others, in a node whose view leaves calls as they are. -/
theorem fits_call {σ : Type} {view : σ → σ} {blank : σ} {change : (Call → Call) → σ → σ}
    {fields : List (FieldForm Kind)} {decoders : List (FieldDecoder σ)}
    (h : Respects grammar (.variant Kind.expressions) expression id)
    (hview : ∀ f s, view (change f s) = change f (view s))
    (hparams : change (fun c => { c with params := [] }) blank = blank)
    (hhash : change (fun c => { c with hash := ⟨[], .synthetic⟩ }) blank = blank)
    (hrest : List.Forall₂ (Fits grammar view blank) fields decoders) :
    List.Forall₂ (Fits grammar view blank) (Kind.callFields ++ fields)
      (callFields expression change ++ decoders) :=
  .cons (fits_required h _ fun _ _ => hview _ _)
    (.cons (fits_optional h.list_id _ (takes_nil _) (fun _ _ => hview _ _) hparams)
      (.cons (fits_optional (presents_hash h).respects _ (takes_hash nofun)
        (fun _ _ => hview _ _) hhash) hrest))

theorem presents_sub (h : Respects grammar (.variant Kind.expressions) expression id) :
    (subSchema expression).Presents grammar .sub id :=
  Schema.presents_closed rfl ["path", "params", "hash", "loc"] rfl (by decide)
    (fits_call h (fun _ _ => rfl) rfl rfl (fits_loc (fun _ _ => rfl) rfl))
    (by simp [subSchema, callFields, requiredField, optionalField, locField, independent_of_set])

theorem presents_modifier (h : Respects grammar (.variant Kind.expressions) expression id) :
    (Modifier.schema expression).Presents grammar .modifier id :=
  Schema.presents_closed rfl ["path", "params", "hash", "loc"] rfl (by decide)
    (fits_call h (fun _ _ => rfl) rfl rfl (fits_loc (fun _ _ => rfl) rfl))
    (by simp [Modifier.schema, callFields, requiredField, optionalField, locField,
      independent_of_set])

end Calls

/-- A variant that is a record, made into what the union is of. -/
theorem respects_record {α β σ : Type} {schema : Schema σ} {kind : Kind} {view : σ → σ}
    {make : σ → α} {seen : α → β} (h : schema.Presents grammar kind view)
    (hmake : ∀ s t, view s = view t → seen (make s) = seen (make t)) :
    Respects grammar (.node kind) (Variant.ofRecord schema make).decode seen :=
  fun manner r r' hedit => (h.respects manner r r' hedit).map hmake

theorem respects_expression (levels : Nat) :
    Respects grammar (.variant Kind.expressions) (Expression.decode levels) id := by
  induction levels with
  | zero => exact fun _ _ _ _ => .error _ _
  | succ levels ih =>
      refine respects_union (by decide) ?_ _
      refine .cons ⟨rfl, respects_record presents_path ?_⟩
        (.cons ⟨rfl, respects_record (presents_sub ih) ?_⟩
        (.cons ⟨rfl, respects_record (presents_literal rfl respects_string _ _) ?_⟩
        (.cons ⟨rfl, respects_record (presents_literal rfl respects_boolean _ _) ?_⟩
        (.cons ⟨rfl, respects_record (presents_literal rfl respects_double _ _) ?_⟩
        (.cons ⟨rfl, respects_record (presents_word rfl _) ?_⟩
        (.cons ⟨rfl, respects_record (presents_word rfl _) ?_⟩ .nil))))))
      all_goals
        rintro s _ rfl
        rfl

/-! ### Statements -/

theorem presents_text : TextNode.schema.Presents grammar .text id :=
  Schema.presents_closed rfl ["chars", "loc"] rfl (by decide)
    (.cons (fits_required respects_string _ fun _ _ => rfl) (fits_loc (fun _ _ => rfl) rfl))
    (by simp [TextNode.schema, requiredField, optionalField, locField, independent_of_set])

theorem presents_comment {kind : Kind}
    (hfields : kind.fields = [⟨"value", none, .scalar⟩, Kind.locField]) (name : String) :
    (Comment.schema name).Presents grammar kind id := by
  refine Schema.presents_closed rfl ["value", "loc"] rfl (by decide) ?_
    (by simp [Comment.schema, requiredField, optionalField, locField, independent_of_set])
  rw [show grammar.fields kind = _ from hfields]
  exact .cons (fits_required respects_string _ fun _ _ => rfl) (fits_loc (fun _ _ => rfl) rfl)

section Mustaches

variable {expression : Decoder Expression}

theorem presents_mustache (h : Respects grammar (.variant Kind.expressions) expression id) :
    (Mustache.schema expression).Presents grammar .mustache Mustache.ordered := by
  refine Schema.presents_open rfl rfl ["path", "params", "hash", "escaped", "loc"] rfl (by decide)
    (fits_call h (fun _ _ => rfl) rfl rfl
      (.cons (fits_optional respects_boolean _ (takes_boolean true) (fun _ _ => rfl) rfl)
        (fits_loc (fun _ _ => rfl) rfl)))
    (by simp [Mustache.schema, callFields, requiredField, optionalField, locField,
      independent_of_set]) ?_
  refine keepsApart_of_placed (fun key v m => { m with extra := m.extra.place key v })
    (fun key v m => ?placed) (fun key key' v v' m hne => ?exchanged)
    (by simp [Mustache.schema, callFields, requiredField, optionalField, locField,
      keptApart_of_set])
  case placed => simp only [Mustache.ordered, orderedMembers_insert]
  case exchanged => simp only [Members.place_comm hne]

theorem respects_concatPart (h : Respects grammar (.variant Kind.expressions) expression id) :
    Respects grammar (.variant Kind.concatParts) (ConcatPart.decode expression)
      ConcatPart.ordered := by
  refine respects_union (by decide) ?_ _
  refine .cons ⟨rfl, respects_record presents_text ?_⟩
    (.cons ⟨rfl, respects_record (presents_mustache h) ?_⟩ .nil)
  · rintro t _ rfl
    rfl
  · exact fun _ _ hview => congrArg ConcatPart.mustache hview

theorem presents_concat (h : Respects grammar (.variant Kind.expressions) expression id) :
    (concatSchema expression).Presents grammar .concat
      fun s => (s.1.map ConcatPart.ordered, s.2) :=
  Schema.presents_closed rfl ["parts", "loc"] rfl (by decide)
    (.cons (fits_required (respects_concatPart h).list _ fun _ _ => rfl)
      (fits_loc (fun _ _ => rfl) rfl))
    (by simp [concatSchema, requiredField, optionalField, locField, independent_of_set])

theorem respects_attributeValue (h : Respects grammar (.variant Kind.expressions) expression id) :
    Respects grammar (.variant Kind.attributeValues) (AttributeValue.decode expression)
      AttributeValue.ordered := by
  refine respects_union (by decide) ?_ _
  refine .cons ⟨rfl, respects_record presents_text ?_⟩
    (.cons ⟨rfl, respects_record (presents_mustache h) ?_⟩
    (.cons ⟨rfl, respects_record (presents_concat h) ?_⟩ .nil))
  · rintro t _ rfl
    rfl
  · exact fun _ _ hview => congrArg AttributeValue.mustache hview
  · rintro ⟨parts, loc⟩ ⟨parts', loc'⟩ hview
    obtain ⟨hparts, rfl⟩ := Prod.mk.inj hview
    exact congrArg (AttributeValue.concat · loc) hparts

theorem presents_attribute (h : Respects grammar (.variant Kind.expressions) expression id) :
    (Attribute.schema expression).Presents grammar .attribute Attribute.ordered :=
  Schema.presents_closed rfl ["name", "value", "loc"] rfl (by decide)
    (.cons (fits_required respects_string _ fun _ _ => rfl)
      (.cons (fits_required (respects_attributeValue h) _ fun _ _ => rfl)
        (fits_loc (fun _ _ => rfl) rfl)))
    (by simp [Attribute.schema, requiredField, optionalField, locField, independent_of_set])

end Mustaches

section Bodies

variable {expression : Decoder Expression} {statement : Decoder Statement}

theorem presents_program
    (h : Respects grammar (.variant Kind.statements) statement Statement.ordered) :
    (Program.schema statement).Presents grammar .program Program.ordered := by
  refine Schema.presents_closed rfl ["body", "blockParams", "loc"] rfl (by decide)
    (.cons (fits_optional h.list _ (takes_nil _) (fun _ _ => ?_) rfl)
      (.cons (fits_optional respects_strings _ (takes_nil _) (fun _ _ => ?_) rfl)
        (fits_loc (fun _ _ => ?_) rfl)))
    (by simp [Program.schema, optionalField, locField, independent_of_set])
  -- What is left: to set a field and then look is to look and then set what the field looks like.
  all_goals simp only [Program.ordered_eq, id_eq]

theorem presents_element (he : Respects grammar (.variant Kind.expressions) expression id)
    (hs : Respects grammar (.variant Kind.statements) statement Statement.ordered) :
    (Element.schema expression statement).Presents grammar .element Element.ordered := by
  refine Schema.presents_open rfl rfl
    ["tag", "attributes", "modifiers", "children", "blockParams", "selfClosing", "loc"] rfl
    (by decide)
    (.cons (fits_required respects_string _ fun _ _ => ?_)
      (.cons (fits_optional (presents_attribute he).respects.list _ (takes_nil _)
        (fun _ _ => ?_) rfl)
      (.cons (fits_optional (presents_modifier he).respects.list_id _ (takes_nil _)
        (fun _ _ => ?_) rfl)
      (.cons (fits_optional hs.list _ (takes_nil _) (fun _ _ => ?_) rfl)
      (.cons (fits_optional respects_strings _ (takes_nil _) (fun _ _ => ?_) rfl)
      (.cons (fits_optional respects_boolean.optional_id _ (takes_optional_null _)
        (fun _ _ => ?_) rfl)
      (fits_loc (fun _ _ => ?_) rfl)))))))
    (by simp [Element.schema, requiredField, optionalField, locField, independent_of_set])
    (keepsApart_of_placed (fun key v e => { e with extra := e.extra.place key v })
      (fun key v e => ?placed) (fun key key' v v' e hne => ?exchanged)
      (by simp [Element.schema, requiredField, optionalField, locField, keptApart_of_set]))
  case placed => simp only [Element.ordered_eq, orderedMembers_insert]
  case exchanged => simp only [Members.place_comm hne]
  all_goals simp only [Element.ordered_eq, id_eq]

theorem presents_block (he : Respects grammar (.variant Kind.expressions) expression id)
    (hs : Respects grammar (.variant Kind.statements) statement Statement.ordered) :
    (Block.schema expression statement).Presents grammar .block Block.ordered := by
  refine Schema.presents_open rfl rfl
    ["path", "params", "hash", "program", "inverse", "loc"] rfl (by decide)
    (fits_call he (fun _ _ => ?_) rfl rfl
      (.cons (fits_required (presents_program hs).respects _ fun _ _ => ?_)
      (.cons (fits_optional (presents_program hs).respects.optional _ (takes_optional_null _)
        (fun _ _ => ?_) rfl)
      (fits_loc (fun _ _ => ?_) rfl))))
    (by simp [Block.schema, callFields, requiredField, optionalField, locField,
      independent_of_set])
    (keepsApart_of_placed (fun key v b => { b with extra := b.extra.place key v })
      (fun key v b => ?placed) (fun key key' v v' b hne => ?exchanged)
      (by simp [Block.schema, callFields, requiredField, optionalField, locField,
        keptApart_of_set]))
  case placed => simp only [Block.ordered_eq, orderedMembers_insert]
  case exchanged => simp only [Members.place_comm hne]
  all_goals simp only [Block.ordered_eq]

end Bodies

theorem respects_statement (levels : Nat) :
    Respects grammar (.variant Kind.statements) (Statement.decode levels) Statement.ordered := by
  induction levels with
  | zero => exact fun _ _ _ _ => .error _ _
  | succ levels ih =>
      have hexpression := respects_expression levels
      refine respects_union (by decide) ?_ _
      refine .cons ⟨rfl, respects_record (presents_element hexpression ih) ?_⟩
        (.cons ⟨rfl, respects_record (presents_mustache hexpression) ?_⟩
        (.cons ⟨rfl, respects_record (presents_block hexpression ih) ?_⟩
        (.cons ⟨rfl, respects_record presents_text ?_⟩
        (.cons ⟨rfl, respects_record (presents_comment rfl _) ?_⟩
        (.cons ⟨rfl, respects_record (presents_comment rfl _) ?_⟩ .nil)))))
      · exact fun _ _ hview => congrArg Statement.element hview
      · exact fun _ _ hview => congrArg Statement.mustache hview
      · exact fun _ _ hview => congrArg Statement.block hview
      · exact fun _ _ hview => congrArg Statement.text hview
      · exact fun _ _ hview => congrArg Statement.comment hview
      · exact fun _ _ hview => congrArg Statement.mustacheComment hview

theorem presents_document (levels : Nat) :
    (Document.schema levels).Presents grammar .document Document.ordered :=
  Schema.presents_closed rfl ["moduleName", "contents", "ast"] rfl (by decide)
    (.cons (fits_optional respects_string.optional_id _ (takes_optional_null _)
        (fun _ _ => rfl) rfl)
      (.cons (fits_optional respects_string.optional_id _ (takes_optional_null _)
        (fun _ _ => rfl) rfl)
      (.cons (fits_required (presents_program (respects_statement levels)).respects _
        fun _ _ => rfl) .nil)))
    (by simp [Document.schema, requiredField, optionalField, independent_of_set])

end CurlyTemplate
