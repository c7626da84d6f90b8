import CurlyTemplate.Proofs.Decode.Records
import CurlyTemplate.Proofs.Syntax.Encoding

/-!
# Trees decoded from their encodings

The decoder of each kind of node takes the node's encoding back to the node. Expressions
and statements nest in themselves: the decoder goes down as many levels as their encoding
nests at least (`takes_expression`, `takes_statement`). Elements, mustaches and blocks keep
further members only under keys that are not their own.
-/

namespace CurlyTemplate

open Json (Value Members)
open Decode (Decoder Filled Schema Takes takes_string takes_boolean takes_natural takes_double
  takes_list takes_optional_null takes_optional_string takes_optional_boolean
  takes_optional_object takes_union takes_record find?_variant)

theorem takes_strings (ss : List String) :
    Takes (Decode.list Decode.string) (encodeStrings ss) ss :=
  takes_list fun s _ => takes_string s

theorem takes_position (p : Position) : Takes Position.schema.decode p.encode p :=
  Schema.takes_fields ["line", "column"] rfl (by decide)
    (.required (takes_natural _) (.required (takes_natural _) (.nil _)))

theorem takes_source (source : Option String) :
    Takes (Decode.optional Decode.string) (source.elim .null .string) source := by
  cases source with
  | none => exact takes_optional_null _
  | some s => exact takes_optional_string s

theorem takes_span (s : Span) : Takes Span.schema.decode s.encode s :=
  Schema.takes_fields ["source", "start", "end"] rfl (by decide)
    (.optional (takes_source s.source)
      (.required (takes_position _) (.required (takes_position _) (.nil _))))

theorem takes_path (p : Path) : Takes Path.schema.decode (.object p.encodeFields) p :=
  Schema.takes_fields ["original", "this", "data", "parts", "loc"] rfl (by decide)
    (.required (takes_string _) (.optional (takes_boolean _) (.optional (takes_boolean _)
      (.optional (takes_strings _) (.optional (takes_span _) (.nil _))))))

theorem takes_literal {α : Type} {name : String} {decode : Decoder α} {blank a : α} {v : Value}
    (h : Takes decode v a) (loc : Span) :
    Takes (literalSchema name decode blank).decode (.object [("value", v), ("loc", loc.encode)])
      (a, loc) :=
  Schema.takes_fields ["value", "loc"] rfl (by decide)
    (.required h (.optional (takes_span loc) (.nil _)))

theorem takes_word (name : String) (loc : Span) :
    Takes (wordSchema name).decode (.object [("loc", loc.encode)]) loc :=
  Schema.takes_fields ["loc"] rfl (by decide) (.optional (takes_span loc) (.nil _))

section Calls

variable {expression : Decoder Expression}

/-- The expressions of a call are taken. -/
structure Call.Taken (expression : Decoder Expression) (c : Call) : Prop where
  path : Takes expression c.path.encode c.path
  params : ∀ e ∈ c.params, Takes expression e.encode e
  hash : ∀ p ∈ c.hash.pairs, Takes expression p.value.encode p.value

theorem takes_hashPair {p : HashPair} (h : Takes expression p.value.encode p.value) :
    Takes (HashPair.schema expression).decode p.encode p := by
  cases p
  exact Schema.takes_tagged rfl ["key", "value", "loc"] rfl (by decide)
    (.required (takes_string _) (.required h (.optional (takes_span _) (.nil _))))

theorem takes_hash {hash : Hash}
    (h : ∀ p ∈ hash.pairs, Takes expression p.value.encode p.value) :
    Takes (Hash.schema expression).decode hash.encode hash := by
  rw [Hash.encode_eq]
  cases hash
  exact Schema.takes_tagged rfl ["pairs", "loc"] rfl (by decide)
    (.optional (takes_list fun p hp => takes_hashPair (h p hp))
      (.optional (takes_span _) (.nil _)))

/-- A call fills its fields, whatever the node around it is. -/
theorem filled_call {σ : Type} {change : (Call → Call) → σ → σ} {c : Call}
    (h : c.Taken expression) (s : σ) :
    Filled (callFields expression change) c.encodeFields s
      (change (fun d => { d with hash := c.hash }) (change (fun d => { d with params := c.params })
        (change (fun d => { d with path := c.path }) s))) := by
  rw [Call.encodeFields_eq]
  exact .required h.path (.optional (takes_list h.params)
    (.optional (takes_hash h.hash) (.nil _)))

theorem takes_sub {c : Call} (h : c.Taken expression) (loc : Span) :
    Takes (subSchema expression).decode (.object (c.encodeFields ++ [("loc", loc.encode)]))
      (c, loc) := by
  cases c
  exact Schema.takes_fields ["path", "params", "hash", "loc"] rfl (by decide)
    ((filled_call h _).append (.optional (takes_span loc) (.nil _)))

theorem takes_modifier {m : Modifier} (h : m.call.Taken expression) :
    Takes (Modifier.schema expression).decode m.encode m := by
  obtain ⟨⟨⟩, loc⟩ := m
  exact Schema.takes_tagged rfl ["path", "params", "hash", "loc"] rfl (by decide)
    ((filled_call h _).append (.optional (takes_span _) (.nil _)))

theorem Extra.Proper.not_mem {x : Extra} (h : x.Proper) {names : List String}
    (hown : x.own = Decode.tagKey :: names) : ∀ m ∈ x.members, m.1 ∉ names :=
  fun m hm hname => h.1 m hm (hown ▸ List.mem_cons_of_mem _ hname)

theorem Extra.Proper.ne_tagKey {x : Extra} (h : x.Proper) {names : List String}
    (hown : x.own = Decode.tagKey :: names) : ∀ m ∈ x.members, m.1 ≠ Decode.tagKey :=
  fun m hm htag => h.1 m hm (by rw [hown, htag]; exact List.mem_cons_self)

theorem takes_mustache {m : Mustache} (h : m.call.Taken expression)
    (hextra : Extra.Proper ⟨Mustache.ownKeys, m.extra⟩) :
    Takes (Mustache.schema expression).decode (.object (m.encodeFields ++ m.extra)) m := by
  obtain ⟨⟨path, params, hash⟩, escaped, loc, extra⟩ := m
  exact Schema.takes_open rfl (Mustache.mk ⟨path, params, hash⟩ escaped loc) (fun _ _ _ => rfl)
    ["path", "params", "hash", "escaped", "loc"] rfl (by decide) (hextra.not_mem rfl) hextra.2
    ((filled_call h _).append (.optional (takes_boolean _) (.optional (takes_span _) (.nil _))))

end Calls

/-! ### Expressions -/

theorem nesting_lt_of_mem_map {α : Type} {encode : α → Value} {xs : List α} {x : α}
    (h : x ∈ xs) : (encode x).nesting < (Value.array (xs.map encode)).nesting :=
  Value.nesting_lt_of_mem_array (List.mem_map_of_mem h)

/-- The expressions of a call nest no deeper than its fields. -/
theorem Call.taken_of_nesting {expression : Decoder Expression} {c : Call} {levels : Nat}
    (hlevels : ∀ m ∈ c.encodeFields, m.2.nesting ≤ levels)
    (h : ∀ e : Expression, e.encode.nesting ≤ levels → Takes expression e.encode e) :
    c.Taken expression := by
  simp only [Call.encodeFields_eq, List.forall_mem_cons] at hlevels
  obtain ⟨hpath, hparams, hhash, -⟩ := hlevels
  refine ⟨h _ hpath, fun e he => h e ?_, fun p hp => h _ ?_⟩
  · exact Nat.le_of_lt (Nat.lt_of_lt_of_le (nesting_lt_of_mem_map he) hparams)
  · have hvalue : p.value.encode.nesting < p.encode.nesting := by
      rw [HashPair.encode_eq]
      exact Value.nesting_lt_of_mem_object "value" (by simp)
    have hpair : p.encode.nesting < (Value.array (c.hash.pairs.map HashPair.encode)).nesting :=
      nesting_lt_of_mem_map hp
    have hpairs : (Value.array (c.hash.pairs.map HashPair.encode)).nesting <
        c.hash.encode.nesting := by
      rw [Hash.encode_eq]
      exact Value.nesting_lt_of_mem_object "pairs" (by simp)
    omega

theorem Expression.find?_variants (inner : Decoder Expression) (index : Nat)
    {variant : Decode.Variant Expression} (h : (variants inner)[index]? = some variant) :
    (variants inner).find? (·.name == variant.name) = some variant := by
  have hnames : ["PathExpression", "SubExpression", "StringLiteral", "BooleanLiteral",
    "NumberLiteral", "NullLiteral", "UndefinedLiteral"].Nodup := by decide
  exact find?_variant hnames rfl index h

theorem Expression.nesting_encode_pos (e : Expression) : 0 < e.encode.nesting := by
  cases e <;> simp [encode, Value.nesting]

theorem Call.ne_tagKey_of_mem_encodeFields {c : Call} {rest : Members}
    (hrest : ∀ m ∈ rest, m.1 ≠ Decode.tagKey) :
    ∀ m ∈ c.encodeFields ++ rest, m.1 ≠ Decode.tagKey := by
  rw [Call.encodeFields_eq, List.forall_mem_append]
  exact ⟨by simp [Decode.tagKey], hrest⟩

/-- What an object with a tag in front holds nests less. -/
theorem nesting_le_of_mem_tagged {tag : Value} {members : Members} {n : Nat}
    (h : (Value.object ((Decode.tagKey, tag) :: members)).nesting ≤ n + 1) :
    ∀ m ∈ members, m.2.nesting ≤ n := fun m hm => by
  have hlt := Value.nesting_lt_of_mem_object m.1 (List.mem_cons_of_mem (Decode.tagKey, tag) hm)
  omega

theorem takes_expression (e : Expression) {levels : Nat} (hlevels : e.encode.nesting ≤ levels) :
    Takes (Expression.decode levels) e.encode e := by
  induction levels generalizing e with
  | zero => exact absurd e.nesting_encode_pos (Nat.not_lt.mpr hlevels)
  | succ levels ih =>
      cases e with
      | path p =>
          exact takes_union (Expression.find?_variants _ 0 rfl)
            (by simp [Path.encodeFields, Decode.tagKey]) (takes_record (takes_path p))
      | sub call loc =>
          have hinside := nesting_le_of_mem_tagged hlevels
          have hcall := call.taken_of_nesting
            (fun m hm => hinside m (List.mem_append_left _ hm)) fun e he => ih e he
          exact takes_union (Expression.find?_variants _ 1 rfl)
            (Call.ne_tagKey_of_mem_encodeFields (by simp [Decode.tagKey]))
            (takes_record (takes_sub hcall loc))
      | string value loc =>
          exact takes_union (Expression.find?_variants _ 2 rfl) (by simp [Decode.tagKey])
            (takes_record (takes_literal (takes_string value) loc))
      | boolean value loc =>
          exact takes_union (Expression.find?_variants _ 3 rfl) (by simp [Decode.tagKey])
            (takes_record (takes_literal (takes_boolean value) loc))
      | number value loc =>
          exact takes_union (Expression.find?_variants _ 4 rfl) (by simp [Decode.tagKey])
            (takes_record (takes_literal (takes_double value) loc))
      | null loc =>
          exact takes_union (Expression.find?_variants _ 5 rfl) (by simp [Decode.tagKey])
            (takes_record (takes_word "NullLiteral" loc))
      | undefined loc =>
          exact takes_union (Expression.find?_variants _ 6 rfl) (by simp [Decode.tagKey])
            (takes_record (takes_word "UndefinedLiteral" loc))

/-! ### Statements -/

theorem takes_text (t : TextNode) :
    Takes TextNode.schema.decode (.object [("chars", .string t.chars), ("loc", t.loc.encode)]) t :=
  Schema.takes_fields ["chars", "loc"] rfl (by decide)
    (.required (takes_string _) (.optional (takes_span _) (.nil _)))

theorem takes_comment (name : String) (c : Comment) :
    Takes (Comment.schema name).decode
      (.object [("value", .string c.value), ("loc", c.loc.encode)]) c :=
  Schema.takes_fields ["value", "loc"] rfl (by decide)
    (.required (takes_string _) (.optional (takes_span _) (.nil _)))

theorem Mustache.taken_of_nesting {m : Mustache} {levels : Nat}
    (h : m.encode.nesting ≤ levels + 1) : m.call.Taken (Expression.decode levels) := by
  rw [Mustache.encode_eq] at h
  have hinside := nesting_le_of_mem_tagged h
  refine Call.taken_of_nesting (fun x hx => hinside x ?_) fun e he => takes_expression e he
  exact List.mem_append_left _ (List.mem_append_left _ hx)

theorem Mustache.ne_tagKey_of_mem {m : Mustache}
    (hextra : Extra.Proper ⟨Mustache.ownKeys, m.extra⟩) :
    ∀ x ∈ m.encodeFields ++ m.extra, x.1 ≠ Decode.tagKey := by
  rw [Mustache.encodeFields, List.append_assoc]
  refine Call.ne_tagKey_of_mem_encodeFields ?_
  rw [List.forall_mem_append]
  exact ⟨by simp [Decode.tagKey], hextra.ne_tagKey rfl⟩

theorem takes_concatPart {part : ConcatPart} {levels : Nat} (hlevels : part.encode.nesting ≤ levels)
    (hextras : ∀ x ∈ part.extras, x.Proper) :
    Takes (ConcatPart.decode (Expression.decode levels)) part.encode part := by
  have hnames : ["TextNode", "MustacheStatement"].Nodup := by decide
  cases part with
  | text t =>
      exact takes_union (find?_variant hnames rfl 0 rfl) (by simp [Decode.tagKey])
        (takes_record (takes_text t))
  | mustache m =>
      have hextra := hextras _ List.mem_cons_self
      have hcall := Mustache.taken_of_nesting (Nat.le_succ_of_le hlevels)
      rw [ConcatPart.encode, Mustache.encode_eq]
      exact takes_union (find?_variant hnames rfl 1 rfl) (Mustache.ne_tagKey_of_mem hextra)
        (takes_record (takes_mustache hcall hextra))

theorem takes_concat {expression : Decoder Expression} {parts : List ConcatPart}
    (h : ∀ part ∈ parts, Takes (ConcatPart.decode expression) part.encode part) (loc : Span) :
    Takes (concatSchema expression).decode
      (.object [("parts", .array (parts.map ConcatPart.encode)), ("loc", loc.encode)])
      (parts, loc) :=
  Schema.takes_fields ["parts", "loc"] rfl (by decide)
    (.required (takes_list h) (.optional (takes_span _) (.nil _)))

theorem takes_attributeValue {value : AttributeValue} {levels : Nat}
    (hlevels : value.encode.nesting ≤ levels) (hextras : ∀ x ∈ value.extras, x.Proper) :
    Takes (AttributeValue.decode (Expression.decode levels)) value.encode value := by
  have hnames : ["TextNode", "MustacheStatement", "ConcatStatement"].Nodup := by decide
  cases value with
  | text t =>
      exact takes_union (find?_variant hnames rfl 0 rfl) (by simp [Decode.tagKey])
        (takes_record (takes_text t))
  | mustache m =>
      have hextra := hextras _ List.mem_cons_self
      have hcall := Mustache.taken_of_nesting (Nat.le_succ_of_le hlevels)
      rw [AttributeValue.encode, Mustache.encode_eq]
      exact takes_union (find?_variant hnames rfl 1 rfl) (Mustache.ne_tagKey_of_mem hextra)
        (takes_record (takes_mustache hcall hextra))
  | concat parts loc =>
      have hparts (part) (hpart : part ∈ parts) :
          Takes (ConcatPart.decode (Expression.decode levels)) part.encode part := by
        have harray : part.encode.nesting < (Value.array (parts.map ConcatPart.encode)).nesting :=
          nesting_lt_of_mem_map hpart
        have hobject : (Value.array (parts.map ConcatPart.encode)).nesting ≤ levels :=
          nesting_le_of_mem_tagged (Nat.le_succ_of_le hlevels) ("parts", _) List.mem_cons_self
        refine takes_concatPart (by omega) fun x hx => hextras x ?_
        exact List.mem_flatMap_of_mem hpart hx
      have hconcat : Takes (Decode.Variant.ofRecord (concatSchema (Expression.decode levels))
          fun s => AttributeValue.concat s.1 s.2).decode _ (.concat parts loc) :=
        takes_record (takes_concat hparts loc)
      exact takes_union (find?_variant hnames rfl 2 rfl) (by simp [Decode.tagKey]) hconcat

theorem takes_attribute {a : Attribute} {levels : Nat} (hlevels : a.encode.nesting ≤ levels)
    (hextras : ∀ x ∈ a.value.extras, x.Proper) :
    Takes (Attribute.schema (Expression.decode levels)).decode a.encode a := by
  have hvalue : a.value.encode.nesting < a.encode.nesting :=
    Value.nesting_lt_of_mem_object "value" (by simp)
  exact Schema.takes_tagged rfl ["name", "value", "loc"] rfl (by decide)
    (.required (takes_string _) (.required (takes_attributeValue (by omega) hextras)
      (.optional (takes_span _) (.nil _))))

theorem Modifier.taken_of_nesting {m : Modifier} {levels : Nat}
    (h : m.encode.nesting ≤ levels + 1) : m.call.Taken (Expression.decode levels) := by
  have hinside := nesting_le_of_mem_tagged h
  exact Call.taken_of_nesting (fun x hx => hinside x (List.mem_append_left _ hx))
    fun e he => takes_expression e he

section Bodies

variable {statement : Decoder Statement}

theorem takes_program {p : Program} (h : ∀ s ∈ p.body, Takes statement s.encode s) :
    Takes (Program.schema statement).decode p.encode p := by
  rw [Program.encode_eq]
  cases p
  exact Schema.takes_tagged rfl ["body", "blockParams", "loc"] rfl (by decide)
    (.optional (takes_list h) (.optional (takes_strings _) (.optional (takes_span _) (.nil _))))

theorem takes_inverse {inverse : Option Program}
    (h : ∀ p, inverse = some p → ∀ s ∈ p.body, Takes statement s.encode s) :
    Takes (Decode.optional (Program.schema statement).decode)
      (inverse.elim .null Program.encode) inverse := by
  cases inverse with
  | none => exact takes_optional_null _
  | some p =>
      have hp := takes_program (h p rfl)
      rw [Option.elim_some, Program.encode_eq] at *
      exact takes_optional_object hp

theorem filled_selfClosing {o : Option Bool} {fields : List (Decode.FieldDecoder Element)}
    {members : Members} {e f : Element} (he : e.selfClosing = none)
    (h : Filled fields members { e with selfClosing := o } f) :
    Filled (Decode.optionalField "selfClosing" (Decode.optional Decode.boolean)
      (fun o e => { e with selfClosing := o }) :: fields)
      (o.elim [] (fun b => [("selfClosing", .bool b)]) ++ members) e f := by
  cases o with
  | none =>
      refine .leave rfl ?_
      cases e
      cases he
      exact h
  | some b => exact .optional (takes_optional_boolean b) h

variable {expression : Decoder Expression}

theorem takes_element {e : Element}
    (hattributes : ∀ a ∈ e.attributes, Takes (Attribute.schema expression).decode a.encode a)
    (hmodifiers : ∀ m ∈ e.modifiers, Takes (Modifier.schema expression).decode m.encode m)
    (hchildren : ∀ s ∈ e.children, Takes statement s.encode s)
    (hextra : Extra.Proper ⟨Element.ownKeys, e.extra⟩) :
    Takes (Element.schema expression statement).decode (.object (e.encodeFields ++ e.extra)) e := by
  obtain ⟨tag, attributes, modifiers, children, blockParams, selfClosing, loc, extra⟩ := e
  exact Schema.takes_open rfl
    (Element.mk tag attributes modifiers children blockParams selfClosing loc) (fun _ _ _ => rfl)
    ["tag", "attributes", "modifiers", "children", "blockParams", "selfClosing", "loc"] rfl
    (by decide) (hextra.not_mem rfl) hextra.2
    (.required (takes_string tag) (.optional (takes_list hattributes)
      (.optional (takes_list hmodifiers) (.optional (takes_list hchildren)
        (.optional (takes_strings blockParams)
          (filled_selfClosing rfl (.optional (takes_span loc) (.nil _))))))))

theorem takes_block {b : Block} (hcall : b.call.Taken expression)
    (hprogram : ∀ s ∈ b.program.body, Takes statement s.encode s)
    (hinverse : ∀ p, b.inverse = some p → ∀ s ∈ p.body, Takes statement s.encode s)
    (hextra : Extra.Proper ⟨Block.ownKeys, b.extra⟩) :
    Takes (Block.schema expression statement).decode (.object (b.encodeFields ++ b.extra)) b := by
  obtain ⟨⟨path, params, hash⟩, program, inverse, loc, extra⟩ := b
  exact Schema.takes_open rfl (Block.mk ⟨path, params, hash⟩ program inverse loc)
    (fun _ _ _ => rfl) ["path", "params", "hash", "program", "inverse", "loc"] rfl (by decide)
    (hextra.not_mem rfl) hextra.2
    ((filled_call hcall _).append (.required (takes_program hprogram)
      (.optional (takes_inverse hinverse) (.optional (takes_span loc) (.nil _)))))

end Bodies

theorem Statement.find?_variants (expression : Decoder Expression) (inner : Decoder Statement)
    (index : Nat) {variant : Decode.Variant Statement}
    (h : (variants expression inner)[index]? = some variant) :
    (variants expression inner).find? (·.name == variant.name) = some variant := by
  have hnames : ["ElementNode", "MustacheStatement", "BlockStatement", "TextNode",
    "CommentStatement", "MustacheCommentStatement"].Nodup := by decide
  exact find?_variant hnames rfl index h

theorem Statement.nesting_encode_pos (s : Statement) : 0 < s.encode.nesting := by
  cases s with
  | element e => rw [encode, Element.encode_eq]; exact Nat.succ_pos _
  | mustache m => rw [encode, Mustache.encode_eq]; exact Nat.succ_pos _
  | block b => rw [encode, Block.encode_eq]; exact Nat.succ_pos _
  | text | comment | mustacheComment => exact Nat.succ_pos _

theorem Program.nesting_lt_of_mem_body {p : Program} {s : Statement} (h : s ∈ p.body) :
    s.encode.nesting + 1 < p.encode.nesting := by
  have hbody : (Value.array (p.body.map Statement.encode)).nesting < p.encode.nesting := by
    rw [Program.encode_eq]
    exact Value.nesting_lt_of_mem_object "body" (by simp)
  have hstatement : s.encode.nesting < (Value.array (p.body.map Statement.encode)).nesting :=
    nesting_lt_of_mem_map h
  omega

/-- The attributes, modifiers and children of an element nest less than the element. -/
theorem Element.nesting_le_of_mem {e : Element} {tag : Value} {levels : Nat}
    (h : (Value.object ((Decode.tagKey, tag) :: (e.encodeFields ++ e.extra))).nesting ≤ levels + 1) :
    (∀ a ∈ e.attributes, a.encode.nesting ≤ levels) ∧
      (∀ m ∈ e.modifiers, m.encode.nesting ≤ levels) ∧
      ∀ s ∈ e.children, s.encode.nesting ≤ levels := by
  have hinside := nesting_le_of_mem_tagged h
  have hlist {α : Type} {encode : α → Value} (key : String) {xs : List α}
      (hmem : (key, .array (xs.map encode)) ∈ e.encodeFields ++ e.extra) :
      ∀ x ∈ xs, (encode x).nesting ≤ levels := fun x hx =>
    Nat.le_of_lt (Nat.lt_of_lt_of_le (nesting_lt_of_mem_map hx) (hinside _ hmem))
  exact ⟨hlist "attributes" (by simp [encodeFields]), hlist "modifiers" (by simp [encodeFields]),
    hlist "children" (by simp [encodeFields])⟩

/-- The call and the bodies of a block nest less than the block. -/
theorem Block.nesting_le_of_mem {b : Block} {tag : Value} {levels : Nat}
    (h : (Value.object ((Decode.tagKey, tag) :: (b.encodeFields ++ b.extra))).nesting ≤ levels + 1) :
    (∀ m ∈ b.call.encodeFields, m.2.nesting ≤ levels) ∧
      (∀ s ∈ b.program.body, s.encode.nesting ≤ levels) ∧
      ∀ p, b.inverse = some p → ∀ s ∈ p.body, s.encode.nesting ≤ levels := by
  have hinside := nesting_le_of_mem_tagged h
  refine ⟨fun m hm => hinside m (by simp [encodeFields, hm]), fun s hs => ?_, fun p hp s hs => ?_⟩
  · have hprogram := hinside ("program", b.program.encode) (by simp [encodeFields])
    have hbody := Program.nesting_lt_of_mem_body hs
    simp only at hprogram
    omega
  · have hinverse := hinside ("inverse", p.encode) (by simp [encodeFields, hp])
    have hbody := Program.nesting_lt_of_mem_body hs
    simp only at hinverse
    omega

theorem Element.ne_tagKey_of_mem {e : Element}
    (hextra : Extra.Proper ⟨Element.ownKeys, e.extra⟩) :
    ∀ m ∈ e.encodeFields ++ e.extra, m.1 ≠ Decode.tagKey := by
  rw [List.forall_mem_append]
  refine ⟨?_, hextra.ne_tagKey rfl⟩
  cases hclosing : e.selfClosing <;> simp [encodeFields, hclosing, Decode.tagKey]

theorem Block.ne_tagKey_of_mem {b : Block} (hextra : Extra.Proper ⟨Block.ownKeys, b.extra⟩) :
    ∀ m ∈ b.encodeFields ++ b.extra, m.1 ≠ Decode.tagKey := by
  rw [encodeFields, List.append_assoc]
  refine Call.ne_tagKey_of_mem_encodeFields ?_
  rw [List.forall_mem_append]
  exact ⟨by simp [Decode.tagKey], hextra.ne_tagKey rfl⟩

/-- A statement is decoded from its encoding, if that nests no deeper than the decoder goes
and its nodes keep their own keys to themselves. -/
theorem takes_statement (s : Statement) {levels : Nat} (hlevels : s.encode.nesting ≤ levels)
    (hextras : ∀ x ∈ s.extras, x.Proper) : Takes (Statement.decode levels) s.encode s := by
  induction levels generalizing s with
  | zero => exact absurd s.nesting_encode_pos (Nat.not_lt.mpr hlevels)
  | succ levels ih =>
      cases s with
      | element e =>
          rw [Statement.encode, Element.encode_eq] at hlevels ⊢
          obtain ⟨hlattributes, hlmodifiers, hlchildren⟩ := Element.nesting_le_of_mem hlevels
          rw [Statement.extras_element, List.forall_mem_cons, List.forall_mem_append] at hextras
          obtain ⟨hextra, hattributes, hchildren⟩ := hextras
          refine takes_union (Statement.find?_variants _ _ 0 rfl) (Element.ne_tagKey_of_mem hextra)
            (takes_record (takes_element (fun a ha => ?_) (fun m hm => ?_) (fun s hs => ?_) hextra))
          · exact takes_attribute (hlattributes a ha) fun x hx =>
              hattributes x (List.mem_flatMap_of_mem ha hx)
          · exact takes_modifier (Modifier.taken_of_nesting (Nat.le_succ_of_le (hlmodifiers m hm)))
          · exact ih s (hlchildren s hs) fun x hx => hchildren x (List.mem_flatMap_of_mem hs hx)
      | mustache m =>
          have hextra := hextras _ List.mem_cons_self
          have hcall := Mustache.taken_of_nesting hlevels
          rw [Statement.encode, Mustache.encode_eq]
          exact takes_union (Statement.find?_variants _ _ 1 rfl) (Mustache.ne_tagKey_of_mem hextra)
            (takes_record (takes_mustache hcall hextra))
      | block b =>
          rw [Statement.encode, Block.encode_eq] at hlevels ⊢
          obtain ⟨hlcall, hlprogram, hlinverse⟩ := Block.nesting_le_of_mem hlevels
          rw [Statement.extras_block, List.forall_mem_cons, List.forall_mem_append] at hextras
          obtain ⟨hextra, hprogram, hinverse⟩ := hextras
          have hcall := Call.taken_of_nesting hlcall fun e he => takes_expression e he
          refine takes_union (Statement.find?_variants _ _ 2 rfl) (Block.ne_tagKey_of_mem hextra)
            (takes_record (takes_block hcall (fun s hs => ?_) (fun p hp s hs => ?_) hextra))
          · refine ih s (hlprogram s hs) fun x hx => hprogram x ?_
            rw [Program.extras_eq]
            exact List.mem_flatMap_of_mem hs hx
          · refine ih s (hlinverse p hp s hs) fun x hx => hinverse x ?_
            rw [hp, Option.elim_some, Program.extras_eq]
            exact List.mem_flatMap_of_mem hs hx
      | text t =>
          exact takes_union (Statement.find?_variants _ _ 3 rfl) (by simp [Decode.tagKey])
            (takes_record (takes_text t))
      | comment c =>
          exact takes_union (Statement.find?_variants _ _ 4 rfl) (by simp [Decode.tagKey])
            (takes_record (takes_comment "CommentStatement" c))
      | mustacheComment c =>
          exact takes_union (Statement.find?_variants _ _ 5 rfl) (by simp [Decode.tagKey])
            (takes_record (takes_comment "MustacheCommentStatement" c))

/-! ### Documents -/

theorem filled_optionalString {σ : Type} {name : String} {o : Option String}
    {set : Option String → σ → σ} {fields : List (Decode.FieldDecoder σ)} {members : Members}
    {s t : σ} (hs : set none s = s) (h : Filled fields members (set o s) t) :
    Filled (Decode.optionalField name (Decode.optional Decode.string) set :: fields)
      (o.elim [] (fun x => [(name, .string x)]) ++ members) s t := by
  cases o with
  | none =>
      rw [hs] at h
      exact .leave rfl h
  | some x => exact .optional (takes_optional_string x) h

theorem takes_document (d : Document) {levels : Nat} (hlevels : d.encode.nesting ≤ levels)
    (hextras : ∀ x ∈ d.extras, x.Proper) : Takes (Document.schema levels).decode d.encode d := by
  have hast : Takes (Program.decode levels) d.ast.encode d.ast := by
    refine takes_program fun s hs => takes_statement s ?_ fun x hx => hextras x ?_
    · have hprogram : d.ast.encode.nesting < d.encode.nesting :=
        Value.nesting_lt_of_mem_object "ast" (by simp)
      have hbody := Program.nesting_lt_of_mem_body hs
      omega
    · rw [Document.extras, Program.extras_eq]
      exact List.mem_flatMap_of_mem hs hx
  rw [Document.encode, List.append_assoc]
  exact Schema.takes_fields ["moduleName", "contents", "ast"] rfl (by decide)
    (filled_optionalString rfl (filled_optionalString rfl (.required hast (.nil _))))

end CurlyTemplate
