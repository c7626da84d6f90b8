import CurlyTemplate.Proofs.Lowering.Simulation
import CurlyTemplate.Proofs.Syntax.Decoded

/-!
# Lowering well-formed trees

What lowering builds has synthetic spans or those of the nodes that it stands for, and no
further members. So the lowered tree of a well-formed tree is well-formed
(`Document.wellFormed_lower`).
-/

namespace CurlyTemplate

open Json (Number Value)

namespace Component

variable {P : Number → Prop}

theorem loc_ofChars (written : List Char) (loc : Span) : (Path.ofChars written loc).loc = loc := by
  simp only [Path.ofChars]

theorem holds_path (hP : KeptByDecoding P) (written : List Char) :
    (Expression.path (Path.ofChars written .synthetic)).encode.Holds P := by
  rw [Expression.holds_encode_path, loc_ofChars]
  exact holds_synthetic hP

theorem holds_string (hP : KeptByDecoding P) (value : String) :
    (Build.string value).encode.Holds P := by
  have hloc := holds_synthetic hP
  simpa [Build.string, Expression.encode] using hloc

theorem holds_sub (hP : KeptByDecoding P) {path : Expression} {params : List Expression}
    {pairs : List HashPair} (hpath : path.encode.Holds P)
    (hparams : ∀ e ∈ params, e.encode.Holds P) (hpairs : ∀ p ∈ pairs, p.encode.Holds P) :
    (Build.sub path params (Build.hash pairs)).encode.Holds P := by
  have hloc := holds_synthetic hP
  rw [Build.sub, Expression.holds_encode_sub, Call.holds_iff, Hash.holds_encode]
  exact ⟨⟨hpath, hparams, hpairs, hloc⟩, hloc⟩

theorem holds_pair (hP : KeptByDecoding P) {key : String} {value : Expression}
    (h : value.encode.Holds P) : (Build.pair key value).encode.Holds P :=
  HashPair.holds_encode.mpr ⟨h, holds_synthetic hP⟩

/-! ### Attributes -/

theorem holds_mustacheExpression {m : Mustache} (h : m.WellFormed P) :
    (mustacheExpression m).encode.Holds P := by
  unfold mustacheExpression
  split
  · exact (Call.holds_iff.mp h.call).1
  · exact Expression.holds_encode_sub.mpr ⟨h.call, h.loc⟩

theorem holds_partExpression (hP : KeptByDecoding P) {part : ConcatPart}
    (h : part.WellFormed P) : (partExpression part).encode.Holds P := by
  cases part with
  | text t => exact holds_string hP t.chars
  | mustache m => exact holds_mustacheExpression (ConcatPart.wellFormed_mustache.mp h)

theorem holds_valueExpression (hP : KeptByDecoding P) {value : AttributeValue}
    (h : value.WellFormed P) : (valueExpression value).encode.Holds P := by
  cases value with
  | text t => exact holds_string hP t.chars
  | mustache m => exact holds_mustacheExpression (AttributeValue.wellFormed_mustache.mp h)
  | concat parts loc =>
      obtain ⟨hparts, -⟩ := AttributeValue.wellFormed_concat.mp h
      refine holds_sub hP (holds_path hP _) (List.forall_mem_map.mpr fun part hpart => ?_) nofun
      exact holds_partExpression hP (hparts part hpart)

theorem holds_attributePair (hP : KeptByDecoding P) (name : String) {a : Attribute}
    (h : a.WellFormed P) : (attributePair name a).encode.Holds P := by
  obtain ⟨hvalue, hloc⟩ := Attribute.wellFormed_iff.mp h
  exact HashPair.holds_encode.mpr ⟨holds_valueExpression hP hvalue, hloc⟩

theorem holds_argumentPairs (hP : KeptByDecoding P) {attributes : List Attribute}
    (h : ∀ a ∈ attributes, a.WellFormed P) :
    ∀ p ∈ argumentPairs attributes, p.encode.Holds P := by
  intro p hp
  obtain ⟨a, ha, hp⟩ := List.mem_filterMap.mp hp
  obtain ⟨name, -, rfl⟩ := Option.map_eq_some_iff.mp hp
  exact holds_attributePair hP name (h a ha)

theorem holds_mergedAttributes (hP : KeptByDecoding P) {attributes : List Attribute}
    (h : ∀ a ∈ attributes, a.WellFormed P) (hasSplat : Bool) :
    (mergedAttributes attributes hasSplat).encode.Holds P := by
  refine holds_sub hP (holds_path hP _) nofun (List.forall_mem_append.mpr ⟨?_, ?_⟩)
  · split
    · exact nofun
    · refine List.forall_mem_singleton.mpr (holds_pair hP (holds_sub hP (holds_path hP _) nofun ?_))
      exact List.forall_mem_map.mpr fun a ha => holds_attributePair hP a.name (h a ha)
  · split
    · exact List.forall_mem_singleton.mpr (holds_pair hP (holds_path hP _))
    · exact nofun

theorem holds_invocationHash (hP : KeptByDecoding P) {attributes : List Attribute}
    (h : ∀ a ∈ attributes, a.WellFormed P) (hasSplat : Bool) :
    (invocationHash attributes hasSplat).encode.Holds P := by
  have hown : ∀ a ∈ attributes.filter (·.name != splatName), a.WellFormed P := fun a ha =>
    h a (List.mem_filter.mp ha).1
  refine Hash.holds_encode.mpr ⟨List.forall_mem_append.mpr ⟨holds_argumentPairs hP hown, ?_⟩,
    holds_synthetic hP⟩
  split
  · refine List.forall_mem_singleton.mpr (holds_pair hP (holds_mergedAttributes hP ?_ _))
    exact fun a ha => hown a (List.mem_filter.mp ha).1
  · exact nofun

/-! ### Elements -/

/-- A callee that a tag says is a path without a span or the name of a component. -/
theorem holds_callee (hP : KeptByDecoding P) {scope : Scope} {tag : List Char}
    {selfClosing hasSplat closing splat : Bool} {callee : Callee}
    (h : classifyTag scope tag selfClosing hasSplat = .dynamic callee closing splat) :
    callee.expression.encode.Holds P := by
  simp only [classifyTag] at h
  split at h
  · cases h
    exact holds_path hP tag
  split at h
  · cases h
    exact holds_path hP tag
  split at h
  · cases h
    exact holds_path hP tag
  split at h
  · cases h
  split at h
  · cases h
  · cases h
    exact holds_string hP _

/-- The call that stands for a well-formed element is well-formed. -/
theorem holds_of_form (hP : KeptByDecoding P) {source : Source} {scope : Scope} {e : Element}
    (he : e.WellFormed P) {call : Call}
    (h : form source scope e = .inline call ∨ form source scope e = .around call) :
    call.Holds P := by
  have hcall {closing : Bool} {path : Expression} {params : List Expression} {splat : Bool}
      (hpath : path.encode.Holds P) (hparams : ∀ e ∈ params, e.encode.Holds P)
      (hform : Form.ofCall closing ⟨path, params, invocationHash e.attributes splat⟩ =
        .inline call ∨
        Form.ofCall closing ⟨path, params, invocationHash e.attributes splat⟩ = .around call) :
      call.Holds P := by
    cases closing <;> rcases hform with hform | hform <;> cases hform <;>
      exact Call.holds_iff.mpr ⟨hpath, hparams, holds_invocationHash hP he.attributes splat⟩
  simp only [form] at h
  cases hclassify : classify source scope e with
  | markup splat => cases splat <;> simp [hclassify] at h
  | static name closing splat =>
      rw [hclassify] at h
      exact hcall (holds_path hP _) (List.forall_mem_nil _) h
  | dynamic callee closing splat =>
      rw [hclassify] at h
      exact hcall (holds_path hP _)
        (List.forall_mem_singleton.mpr (holds_callee hP hclassify)) h

theorem wellFormed_applySplat (hP : KeptByDecoding P) {e : Element} (h : e.WellFormed P) :
    (applySplat e).WellFormed P := by
  have hloc := holds_synthetic hP
  refine { h with
    attributes := fun a ha => h.attributes a (List.mem_filter.mp ha).1
    modifiers := List.forall_mem_append.mpr ⟨h.modifiers, List.forall_mem_singleton.mpr ?_⟩ }
  refine Modifier.holds_encode.mpr ⟨Call.holds_iff.mpr ⟨holds_path hP _, ?_, ?_⟩, hloc⟩
  · exact List.forall_mem_singleton.mpr (holds_path hP _)
  · exact Hash.holds_encode.mpr ⟨nofun, hloc⟩

theorem wellFormed_of_form_markup (hP : KeptByDecoding P) {source : Source} {scope : Scope}
    {e kept : Element} (he : e.WellFormed P) (h : form source scope e = .markup kept) :
    kept.WellFormed P := by
  rcases form_eq_markup_iff.mp h with ⟨-, rfl⟩ | ⟨-, rfl⟩
  · exact he
  · exact wellFormed_applySplat hP he

/-! ### Trees -/

theorem wellFormed_program_lowered {source : Source} {scope : Scope} {p : Program}
    (h : p.WellFormed P)
    (hbody : ∀ s ∈ p.body, ∀ scope, s.WellFormed P → (s.lowered source scope).WellFormed P) :
    (p.lowered source scope).WellFormed P := by
  obtain ⟨hstatements, hloc⟩ := Program.wellFormed_iff.mp h
  rw [Program.lowered_eq]
  exact Program.wellFormed_iff.mpr
    ⟨List.forall_mem_map.mpr fun s hs => hbody s hs _ (hstatements s hs), hloc⟩

theorem wellFormed_lowered (hP : KeptByDecoding P) (source : Source) (s : Statement)
    (scope : Scope) (h : s.WellFormed P) : (s.lowered source scope).WellFormed P := by
  induction s using Statement.induction generalizing scope with
  | element e ih =>
      have he := Statement.wellFormed_element.mp h
      have hchildren (scope : Scope) :
          ∀ t ∈ e.children.map (Statement.lowered source scope), t.WellFormed P :=
        List.forall_mem_map.mpr fun s hs => ih s hs scope (he.children s hs)
      cases hform : form source scope e with
      | markup kept =>
          rw [Statement.lowered_markup hform]
          exact Statement.wellFormed_element.mpr
            { wellFormed_of_form_markup hP he hform with children := hchildren scope }
      | inline call =>
          rw [Statement.lowered_inline hform]
          exact Statement.wellFormed_mustache.mpr
            ⟨holds_of_form hP he (.inl hform), he.loc, Extra.wellFormed_nil _⟩
      | around call =>
          rw [Statement.lowered_around hform]
          exact Statement.wellFormed_block.mpr ⟨holds_of_form hP he (.inr hform),
            Program.wellFormed_iff.mpr ⟨hchildren _, holds_synthetic hP⟩, nofun, he.loc,
            Extra.wellFormed_nil _⟩
  | block b ihprogram ihinverse =>
      have hb := Statement.wellFormed_block.mp h
      rw [Statement.lowered_block]
      refine Statement.wellFormed_block.mpr { hb with program := ?_, inverse := fun q hq => ?_ }
      · exact wellFormed_program_lowered hb.program ihprogram
      · obtain ⟨p, hp, rfl⟩ := Option.map_eq_some_iff.mp hq
        exact wellFormed_program_lowered (hb.inverse p hp) (ihinverse p hp)
  | mustache | text | comment | mustacheComment => exact h

end Component

/-- The lowered tree of a well-formed document is well-formed. -/
theorem Document.wellFormed_lower {P : Number → Prop} (hP : KeptByDecoding P) {d : Document}
    (h : d.WellFormed P) : d.lower.WellFormed P := by
  rw [wellFormed_iff] at h ⊢
  rw [lower, Component.lower_eq_lowered]
  exact Component.wellFormed_program_lowered h fun s _ scope hs =>
    Component.wellFormed_lowered hP _ s scope hs

end CurlyTemplate
