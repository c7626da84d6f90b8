import CurlyTemplate.Proofs.Decode.Yields
import CurlyTemplate.Proofs.Syntax.WellFormed

/-!
# Decoded trees are well-formed

Whatever a tree is decoded from, it is well-formed: its numbers are those of the text, or
zero and one where a span was missing, and what its nodes keep beside their fields are
members under other keys.
-/

namespace CurlyTemplate

open Json (Number Value Members)
open Decode (Decoder FieldDecoder Schema Variant Yields keeps_required keeps_optional keeps_nil
  keeps_cons keeps_append yields_true yields_natural yields_double yields_union)

/-- A property that the numbers in a tree keep while it is decoded: it holds of the numbers
in a synthetic span, and a double that stands for an integer has it with the integer. -/
structure KeptByDecoding (P : Number → Prop) : Prop where
  zero : P (.int 0)
  one : P (.int 1)
  ofInt : ∀ n, P (.int n) → P (.float (Float.ofInt n))

variable {P : Number → Prop}

theorem holds_synthetic (hP : KeptByDecoding P) : Span.synthetic.encode.Holds P := by
  rw [Span.holds_encode, Position.holds_encode, Position.holds_encode]
  exact ⟨⟨hP.one, hP.zero⟩, hP.one, hP.zero⟩

theorem holds_origin (hP : KeptByDecoding P) : (⟨0, 0⟩ : Position).encode.Holds P :=
  Position.holds_encode.mpr ⟨hP.zero, hP.zero⟩

theorem yields_position (hP : KeptByDecoding P) :
    Yields P Position.schema.decode fun p => p.encode.Holds P := by
  have h : Yields P Position.schema.decode fun p => P (.int p.line) ∧ P (.int p.column) :=
    Schema.yields_closed rfl ⟨hP.zero, hP.zero⟩
      (keeps_cons (keeps_required yields_natural fun _ _ hn hp => ⟨hn, hp.2⟩)
        (keeps_cons (keeps_required yields_natural fun _ _ hn hp => ⟨hp.1, hn⟩) keeps_nil))
  exact h.imp fun p hp => Position.holds_encode.mpr hp

theorem yields_span (hP : KeptByDecoding P) :
    Yields P Span.schema.decode fun s => s.encode.Holds P := by
  have h : Yields P Span.schema.decode
      fun s => s.start.encode.Holds P ∧ s.stop.encode.Holds P :=
    Schema.yields_closed rfl ⟨holds_origin hP, holds_origin hP⟩
      (keeps_cons (keeps_optional (yields_true _) fun _ _ _ hs => hs)
        (keeps_cons (keeps_required (yields_position hP) fun _ _ hp hs => ⟨hp, hs.2⟩)
          (keeps_cons (keeps_required (yields_position hP) fun _ _ hp hs => ⟨hs.1, hp⟩)
            keeps_nil)))
  exact h.imp fun s hs => Span.holds_encode.mpr hs

section Fields

variable {σ : Type} {I : σ → Prop}

theorem keeps_locField (hP : KeptByDecoding P) {set : Span → σ → σ}
    (h : ∀ loc s, loc.encode.Holds P → I s → I (set loc s)) : (locField set).Keeps P I :=
  keeps_optional (yields_span hP) h

/-- A field that has no number in it changes nothing that an invariant is about. -/
theorem keeps_other {α : Type} {name : String} {decode : Decoder α} {set : α → σ → σ}
    (h : ∀ a s, I s → I (set a s)) : (Decode.optionalField name decode set).Keeps P I :=
  keeps_optional (yields_true _) fun a s _ => h a s

end Fields

theorem yields_path (hP : KeptByDecoding P) :
    Yields P Path.schema.decode fun p => p.loc.encode.Holds P :=
  Schema.yields_closed rfl (holds_synthetic hP)
    (keeps_cons (keeps_required (yields_true _) fun _ _ _ hp => hp)
      (keeps_cons (keeps_other fun _ _ hp => hp) (keeps_cons (keeps_other fun _ _ hp => hp)
        (keeps_cons (keeps_other fun _ _ hp => hp)
          (keeps_cons (keeps_locField hP fun _ _ hloc _ => hloc) keeps_nil)))))

theorem yields_literal {α : Type} {name : String} {decode : Decoder α} {blank : α} {Q : α → Prop}
    (hP : KeptByDecoding P) (hdecode : Yields P decode Q) (hblank : Q blank) :
    Yields P (literalSchema name decode blank).decode
      fun s => Q s.1 ∧ s.2.encode.Holds P :=
  Schema.yields_closed rfl ⟨hblank, holds_synthetic hP⟩
    (keeps_cons (keeps_required hdecode fun _ _ ha hs => ⟨ha, hs.2⟩)
      (keeps_cons (keeps_locField hP fun _ _ hloc hs => ⟨hs.1, hloc⟩) keeps_nil))

theorem yields_word (hP : KeptByDecoding P) (name : String) :
    Yields P (wordSchema name).decode fun loc => loc.encode.Holds P :=
  Schema.yields_closed rfl (holds_synthetic hP)
    (keeps_cons (keeps_locField hP fun _ _ hloc _ => hloc) keeps_nil)

section Calls

variable {expression : Decoder Expression}

/-- The expression that stands for one that is still to be read. -/
theorem holds_default (hP : KeptByDecoding P) : (default : Expression).encode.Holds P := by
  have hloc := holds_synthetic hP
  change (Expression.null .synthetic).encode.Holds P
  simpa [Expression.encode] using hloc

theorem yields_hashPair (hP : KeptByDecoding P)
    (h : Yields P expression fun e => e.encode.Holds P) :
    Yields P (HashPair.schema expression).decode fun p => p.encode.Holds P := by
  have hpair : Yields P (HashPair.schema expression).decode
      fun p => p.value.encode.Holds P ∧ p.loc.encode.Holds P :=
    Schema.yields_closed rfl ⟨holds_default hP, holds_synthetic hP⟩
      (keeps_cons (keeps_required (yields_true _) fun _ _ _ hp => hp)
        (keeps_cons (keeps_required h fun _ _ he hp => ⟨he, hp.2⟩)
          (keeps_cons (keeps_locField hP fun _ _ hloc hp => ⟨hp.1, hloc⟩) keeps_nil)))
  exact hpair.imp fun p hp => HashPair.holds_encode.mpr hp

theorem yields_hash (hP : KeptByDecoding P) (h : Yields P expression fun e => e.encode.Holds P) :
    Yields P (Hash.schema expression).decode fun h => h.encode.Holds P := by
  have hhash : Yields P (Hash.schema expression).decode
      fun h => (∀ p ∈ h.pairs, p.encode.Holds P) ∧ h.loc.encode.Holds P :=
    Schema.yields_closed rfl ⟨nofun, holds_synthetic hP⟩
      (keeps_cons (keeps_optional (yields_hashPair hP h).list fun _ _ hps hh => ⟨hps, hh.2⟩)
        (keeps_cons (keeps_locField hP fun _ _ hloc hh => ⟨hh.1, hloc⟩) keeps_nil))
  exact hhash.imp fun h hh => Hash.holds_encode.mpr hh

theorem holds_blank (hP : KeptByDecoding P) : Call.blank.Holds P := by
  refine Call.holds_iff.mpr ⟨holds_default hP, nofun, Hash.holds_encode.mpr ⟨nofun, ?_⟩⟩
  exact holds_synthetic hP

/-- The fields of a call keep an invariant of the node around it that is kept where the
numbers in the changed call have the property. -/
theorem keeps_callFields {σ : Type} {I : σ → Prop} {change : (Call → Call) → σ → σ}
    (hP : KeptByDecoding P) (h : Yields P expression fun e => e.encode.Holds P)
    (hchange : ∀ f s, (∀ c : Call, c.Holds P → (f c).Holds P) → I s → I (change f s)) :
    ∀ field ∈ callFields expression change, field.Keeps P I := by
  refine keeps_cons (keeps_required h fun e s he => hchange _ s fun c hc => ?_)
    (keeps_cons (keeps_optional h.list fun es s hes => hchange _ s fun c hc => ?_)
      (keeps_cons (keeps_optional (yields_hash hP h) fun hash s hh => hchange _ s fun c hc => ?_)
        keeps_nil))
  · exact Call.holds_iff.mpr ⟨he, (Call.holds_iff.mp hc).2⟩
  · have hc := Call.holds_iff.mp hc
    exact Call.holds_iff.mpr ⟨hc.1, hes, hc.2.2⟩
  · have hc := Call.holds_iff.mp hc
    exact Call.holds_iff.mpr ⟨hc.1, hc.2.1, hh⟩

theorem yields_sub (hP : KeptByDecoding P) (h : Yields P expression fun e => e.encode.Holds P) :
    Yields P (subSchema expression).decode fun s => s.1.Holds P ∧ s.2.encode.Holds P :=
  Schema.yields_closed rfl ⟨holds_blank hP, holds_synthetic hP⟩
    (keeps_append (keeps_callFields hP h fun _ _ hf hs => ⟨hf _ hs.1, hs.2⟩)
      (keeps_cons (keeps_locField hP fun _ _ hloc hs => ⟨hs.1, hloc⟩) keeps_nil))

theorem yields_modifier (hP : KeptByDecoding P)
    (h : Yields P expression fun e => e.encode.Holds P) :
    Yields P (Modifier.schema expression).decode fun m => m.encode.Holds P := by
  have hmodifier : Yields P (Modifier.schema expression).decode
      fun m => m.call.Holds P ∧ m.loc.encode.Holds P :=
    Schema.yields_closed rfl ⟨holds_blank hP, holds_synthetic hP⟩
      (keeps_append (keeps_callFields hP h fun _ _ hf hm => ⟨hf _ hm.1, hm.2⟩)
        (keeps_cons (keeps_locField hP fun _ _ hloc hm => ⟨hm.1, hloc⟩) keeps_nil))
  exact hmodifier.imp fun m hm => Modifier.holds_encode.mpr hm

end Calls

theorem yields_expression (hP : KeptByDecoding P) (levels : Nat) :
    Yields P (Expression.decode levels) fun e => e.encode.Holds P := by
  induction levels with
  | zero => exact fun _ _ _ _ h => nomatch h
  | succ levels ih =>
      refine yields_union ?_
      simp only [Expression.variants, List.forall_mem_cons]
      refine ⟨?_, ?_, ?_, ?_, ?_, ?_, ?_, nofun⟩
      · exact Variant.yields_closed (yields_path hP) fun p hp => Expression.holds_encode_path.mpr hp
      · exact Variant.yields_closed (yields_sub hP ih) fun s hs => Expression.holds_encode_sub.mpr hs
      · refine Variant.yields_closed (yields_literal hP (yields_true _) trivial) fun s hs => ?_
        simpa [Expression.encode] using hs.2
      · refine Variant.yields_closed (yields_literal hP (yields_true _) trivial) fun s hs => ?_
        simpa [Expression.encode] using hs.2
      · refine Variant.yields_closed (yields_literal hP (yields_double hP.ofInt) ?_) fun s hs => ?_
        · have hzero : Float.ofInt 0 = 0 := by decide +kernel
          exact hzero ▸ hP.ofInt 0 hP.zero
        · simpa [Expression.encode] using hs
      · refine Variant.yields_closed (yields_word hP _) fun loc hloc => ?_
        simpa [Expression.encode] using hloc
      · refine Variant.yields_closed (yields_word hP _) fun loc hloc => ?_
        simpa [Expression.encode] using hloc

/-! ### Statements -/

theorem yields_text (hP : KeptByDecoding P) :
    Yields P TextNode.schema.decode fun t => t.loc.encode.Holds P :=
  Schema.yields_closed rfl (holds_synthetic hP)
    (keeps_cons (keeps_required (yields_true _) fun _ _ _ ht => ht)
      (keeps_cons (keeps_locField hP fun _ _ hloc _ => hloc) keeps_nil))

theorem yields_comment (hP : KeptByDecoding P) (name : String) :
    Yields P (Comment.schema name).decode fun c => c.loc.encode.Holds P :=
  Schema.yields_closed rfl (holds_synthetic hP)
    (keeps_cons (keeps_required (yields_true _) fun _ _ _ hc => hc)
      (keeps_cons (keeps_locField hP fun _ _ hloc _ => hloc) keeps_nil))

theorem Extra.wellFormed_nil (own : List String) : Extra.WellFormed P ⟨own, []⟩ :=
  ⟨⟨nofun, Value.keysDistinct_object.mpr ⟨List.nodup_nil, nofun⟩⟩, nofun⟩

/-- A member under a key that is not the node's own is kept in its place or at the end. -/
theorem Extra.WellFormed.insert {own : List String} {members : Members}
    (h : Extra.WellFormed P ⟨own, members⟩) {key : String} (hkey : key ∉ own) {value : Value}
    (hdistinct : value.KeysDistinct) (hvalue : value.Holds P) :
    Extra.WellFormed P ⟨own, members.insert key value⟩ := by
  obtain ⟨⟨howns, hkeys⟩, hmembers⟩ := h
  rw [Value.keysDistinct_object] at hkeys
  rw [Value.holds_object] at hmembers
  refine ⟨⟨fun m hm => ?_, Value.keysDistinct_object.mpr ⟨?_, fun m hm => ?_⟩⟩,
    Value.holds_object.mpr fun m hm => ?_⟩
  · rcases Members.mem_insert hm with rfl | hm
    · exact hkey
    · exact howns m hm
  · exact Members.nodup_keys_insert hkeys.1 key value
  · rcases Members.mem_insert hm with rfl | hm
    · exact hdistinct
    · exact hkeys.2 m hm
  · rcases Members.mem_insert hm with rfl | hm
    · exact hvalue
    · exact hmembers m hm

theorem not_mem_own {key : String} {names own : List String} (hown : own = Decode.tagKey :: names)
    (hkey : key ∉ names) (htag : key ≠ Decode.tagKey) : key ∉ own := by
  rw [hown, List.mem_cons, not_or]
  exact ⟨htag, hkey⟩

section Mustaches

variable {expression : Decoder Expression}

theorem keeps_mustacheFields (hP : KeptByDecoding P)
    (h : Yields P expression fun e => e.encode.Holds P) :
    ∀ field ∈ (Mustache.schema expression).fields, field.Keeps P (Mustache.WellFormed P) :=
  keeps_append (keeps_callFields hP h fun _ _ hf hm => { hm with call := hf _ hm.call })
    (keeps_cons (keeps_other fun _ _ hm => { hm with })
      (keeps_cons (keeps_locField hP fun _ _ hloc hm => { hm with loc := hloc }) keeps_nil))

theorem keepsOthers_mustache :
    (Mustache.schema expression).KeepsOthers P (Mustache.WellFormed P) := by
  rintro _ ⟨⟩ key value m hkey htag hdistinct hvalue hm
  exact { hm with extra := hm.extra.insert (not_mem_own rfl hkey htag) hdistinct hvalue }

/-- A mustache as a variant of whatever it can stand for. -/
theorem yields_mustache {α : Type} {make : Mustache → α} {Q : α → Prop} (hP : KeptByDecoding P)
    (h : Yields P expression fun e => e.encode.Holds P)
    (hmake : ∀ m : Mustache, m.WellFormed P → Q (make m)) :
    (Variant.ofRecord (Mustache.schema expression) make).Yields P Q :=
  Variant.yields_open ⟨holds_blank hP, holds_synthetic hP, Extra.wellFormed_nil _⟩
    (keeps_mustacheFields hP h) keepsOthers_mustache hmake

theorem yields_concatPart (hP : KeptByDecoding P)
    (h : Yields P expression fun e => e.encode.Holds P) :
    Yields P (ConcatPart.decode expression) (ConcatPart.WellFormed P) := by
  refine yields_union (List.forall_mem_cons.mpr ⟨?_, List.forall_mem_singleton.mpr ?_⟩)
  · exact Variant.yields_closed (yields_text hP) fun t ht =>
      ConcatPart.wellFormed_text.mpr (TextNode.holds_encode.mpr ht)
  · exact yields_mustache hP h fun m hm => ConcatPart.wellFormed_mustache.mpr hm

theorem yields_concat (hP : KeptByDecoding P)
    (h : Yields P expression fun e => e.encode.Holds P) :
    Yields P (concatSchema expression).decode
      fun s => (∀ part ∈ s.1, part.WellFormed P) ∧ s.2.encode.Holds P :=
  Schema.yields_closed rfl ⟨nofun, holds_synthetic hP⟩
    (keeps_cons (keeps_required (yields_concatPart hP h).list fun _ _ hps hs => ⟨hps, hs.2⟩)
      (keeps_cons (keeps_locField hP fun _ _ hloc hs => ⟨hs.1, hloc⟩) keeps_nil))

theorem yields_attributeValue (hP : KeptByDecoding P)
    (h : Yields P expression fun e => e.encode.Holds P) :
    Yields P (AttributeValue.decode expression) (AttributeValue.WellFormed P) := by
  refine yields_union (List.forall_mem_cons.mpr ⟨?_, List.forall_mem_cons.mpr ⟨?_,
    List.forall_mem_singleton.mpr ?_⟩⟩)
  · exact Variant.yields_closed (yields_text hP) fun t ht =>
      AttributeValue.wellFormed_text.mpr (TextNode.holds_encode.mpr ht)
  · exact yields_mustache hP h fun m hm => AttributeValue.wellFormed_mustache.mpr hm
  · exact Variant.yields_closed (yields_concat hP h) fun s hs =>
      AttributeValue.wellFormed_concat.mpr hs

theorem yields_attribute (hP : KeptByDecoding P)
    (h : Yields P expression fun e => e.encode.Holds P) :
    Yields P (Attribute.schema expression).decode (Attribute.WellFormed P) := by
  have hblank : (AttributeValue.text default).WellFormed P :=
    AttributeValue.wellFormed_text.mpr (TextNode.holds_encode.mpr (holds_synthetic hP))
  have hattribute : Yields P (Attribute.schema expression).decode
      fun a => a.value.WellFormed P ∧ a.loc.encode.Holds P :=
    Schema.yields_closed rfl ⟨hblank, holds_synthetic hP⟩
      (keeps_cons (keeps_required (yields_true _) fun _ _ _ ha => ha)
        (keeps_cons (keeps_required (yields_attributeValue hP h) fun _ _ hv ha => ⟨hv, ha.2⟩)
          (keeps_cons (keeps_locField hP fun _ _ hloc ha => ⟨ha.1, hloc⟩) keeps_nil)))
  exact hattribute.imp fun a ha => Attribute.wellFormed_iff.mpr ha

end Mustaches

section Bodies

variable {expression : Decoder Expression} {statement : Decoder Statement}

theorem yields_program (hP : KeptByDecoding P)
    (h : Yields P statement (Statement.WellFormed P)) :
    Yields P (Program.schema statement).decode (Program.WellFormed P) := by
  have hprogram : Yields P (Program.schema statement).decode
      fun p => (∀ s ∈ p.body, s.WellFormed P) ∧ p.loc.encode.Holds P :=
    Schema.yields_closed rfl ⟨nofun, holds_synthetic hP⟩
      (keeps_cons (keeps_optional h.list fun _ _ hss hp => ⟨hss, hp.2⟩)
        (keeps_cons (keeps_other fun _ _ hp => hp)
          (keeps_cons (keeps_locField hP fun _ _ hloc hp => ⟨hp.1, hloc⟩) keeps_nil)))
  exact hprogram.imp fun p hp => Program.wellFormed_iff.mpr hp

theorem keeps_elementFields (hP : KeptByDecoding P)
    (he : Yields P expression fun e => e.encode.Holds P)
    (hs : Yields P statement (Statement.WellFormed P)) :
    ∀ field ∈ (Element.schema expression statement).fields,
      field.Keeps P (Element.WellFormed P) :=
  keeps_cons (keeps_required (yields_true _) fun _ _ _ h => { h with })
    (keeps_cons (keeps_optional (yields_attribute hP he).list
      fun _ _ hxs h => { h with attributes := hxs })
      (keeps_cons (keeps_optional (yields_modifier hP he).list
        fun _ _ hxs h => { h with modifiers := hxs })
        (keeps_cons (keeps_optional hs.list fun _ _ hxs h => { h with children := hxs })
          (keeps_cons (keeps_other fun _ _ h => { h with })
            (keeps_cons (keeps_other fun _ _ h => { h with })
              (keeps_cons (keeps_locField hP fun _ _ hloc h => { h with loc := hloc })
                keeps_nil))))))

theorem keepsOthers_element :
    (Element.schema expression statement).KeepsOthers P (Element.WellFormed P) := by
  rintro _ ⟨⟩ key value e hkey htag hdistinct hvalue he
  exact { he with extra := he.extra.insert (not_mem_own rfl hkey htag) hdistinct hvalue }

theorem keeps_blockFields (hP : KeptByDecoding P)
    (he : Yields P expression fun e => e.encode.Holds P)
    (hs : Yields P statement (Statement.WellFormed P)) :
    ∀ field ∈ (Block.schema expression statement).fields, field.Keeps P (Block.WellFormed P) :=
  keeps_append (keeps_callFields hP he fun _ _ hf h => { h with call := hf _ h.call })
    (keeps_cons (keeps_required (yields_program hP hs) fun _ _ hp h => { h with program := hp })
      (keeps_cons (keeps_optional (yields_program hP hs).optional
        fun _ _ ho h => { h with inverse := ho })
        (keeps_cons (keeps_locField hP fun _ _ hloc h => { h with loc := hloc }) keeps_nil)))

theorem keepsOthers_block :
    (Block.schema expression statement).KeepsOthers P (Block.WellFormed P) := by
  rintro _ ⟨⟩ key value b hkey htag hdistinct hvalue hb
  exact { hb with extra := hb.extra.insert (not_mem_own rfl hkey htag) hdistinct hvalue }

end Bodies

theorem yields_statement (hP : KeptByDecoding P) (levels : Nat) :
    Yields P (Statement.decode levels) (Statement.WellFormed P) := by
  induction levels with
  | zero => exact fun _ _ _ _ h => nomatch h
  | succ levels ih =>
      have hexpression := yields_expression hP levels
      have hprogram : (⟨[], [], .synthetic⟩ : Program).WellFormed P :=
        Program.wellFormed_iff.mpr ⟨nofun, holds_synthetic hP⟩
      refine yields_union ?_
      simp only [Statement.variants, List.forall_mem_cons]
      refine ⟨?_, ?_, ?_, ?_, ?_, ?_, nofun⟩
      · exact Variant.yields_open
          ⟨nofun, nofun, nofun, holds_synthetic hP, Extra.wellFormed_nil _⟩
          (keeps_elementFields hP hexpression ih) keepsOthers_element
          fun e he => Statement.wellFormed_element.mpr he
      · exact yields_mustache hP hexpression fun m hm => Statement.wellFormed_mustache.mpr hm
      · exact Variant.yields_open
          ⟨holds_blank hP, hprogram, nofun, holds_synthetic hP, Extra.wellFormed_nil _⟩
          (keeps_blockFields hP hexpression ih) keepsOthers_block
          fun b hb => Statement.wellFormed_block.mpr hb
      · exact Variant.yields_closed (yields_text hP) fun t ht =>
          Statement.wellFormed_text.mpr (TextNode.holds_encode.mpr ht)
      · exact Variant.yields_closed (yields_comment hP _) fun c hc =>
          Statement.wellFormed_comment.mpr (Comment.holds_encode.mpr hc)
      · exact Variant.yields_closed (yields_comment hP _) fun c hc =>
          Statement.wellFormed_mustacheComment.mpr (Comment.holds_encode.mpr hc)

/-! ### Documents -/

theorem yields_document (hP : KeptByDecoding P) (levels : Nat) :
    Yields P (Document.schema levels).decode (Document.WellFormed P) := by
  have hblank : (⟨[], [], .synthetic⟩ : Program).WellFormed P :=
    Program.wellFormed_iff.mpr ⟨nofun, holds_synthetic hP⟩
  have h : Yields P (Document.schema levels).decode fun d => d.ast.WellFormed P :=
    Schema.yields_closed rfl hblank
      (keeps_cons (keeps_other fun _ _ hd => hd) (keeps_cons (keeps_other fun _ _ hd => hd)
        (keeps_cons (keeps_required (yields_program hP (yields_statement hP levels))
          fun _ _ hp _ => hp) keeps_nil)))
  exact h.imp fun d hd => Document.wellFormed_iff.mpr hd

/-- A document that is decoded from a text is well-formed. -/
theorem Document.wellFormed_of_ofText (hP : KeptByDecoding P)
    (hnumerals : ∀ (numeral : Json.Numeral) n, numeral.value? = some n → P n) {text : String}
    {d : Document} (h : ofText text = .ok d) : d.WellFormed P := by
  obtain ⟨e, he, h⟩ := bind_eq_ok_iff.mp h
  obtain ⟨-, -, h⟩ := bind_eq_ok_iff.mp h
  cases h
  exact yields_document hP _ _ _ _ (Json.holds_ofText hnumerals _ text) he

end CurlyTemplate
