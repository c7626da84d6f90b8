import CurlyTemplate.Proofs.Lowering.Lockstep
import CurlyTemplate.Proofs.Syntax.Placeless

/-!
# Lowering without places

Lowering reads a span in two ways: it hands it on to what it builds, and it looks up the
text of an element. The first commutes with forgetting all places, and the second finds
nothing at a synthetic span. So a tree without places is lowered as if there were no text,
and the result is the lowered tree without its places (`lower_placeless`).
-/

namespace CurlyTemplate

namespace Component

variable {source : Source} {scope : Scope}

/-! ### Attributes -/

theorem placeless_mustacheExpression (m : Mustache) :
    mustacheExpression m.placeless = (mustacheExpression m).placeless := by
  have hbare : m.call.placeless.isBare = m.call.isBare := Call.isBare_strip _ _
  have hpath : m.call.placeless.path = m.call.path.placeless := by
    rw [Call.placeless, Call.strip_eq, Expression.placeless]
  rw [mustacheExpression, mustacheExpression, Mustache.placeless]
  dsimp only
  rw [hbare, hpath]
  split <;> rfl

theorem placeless_partExpression (part : ConcatPart) :
    partExpression part.placeless = (partExpression part).placeless := by
  cases part with
  | text t => rfl
  | mustache m => exact placeless_mustacheExpression m

theorem placeless_valueExpression (value : AttributeValue) :
    valueExpression value.placeless = (valueExpression value).placeless := by
  cases value with
  | text t => rfl
  | mustache m => exact placeless_mustacheExpression m
  | concat parts loc =>
      have hparts : (parts.map (·.placeless)).map partExpression =
          (parts.map partExpression).map (·.placeless) := by
        rw [List.map_map, List.map_map]
        exact List.map_congr_left fun part _ => placeless_partExpression part
      rw [AttributeValue.placeless, valueExpression, valueExpression, hparts,
        Build.placeless_sub, Build.placeless_path, Build.placeless_hash, List.map_nil]

theorem placeless_attributePair (name : String) (a : Attribute) :
    attributePair name a.placeless = (attributePair name a).placeless := by
  rw [attributePair, attributePair, HashPair.placeless, HashPair.strip_eq]
  exact congrArg (HashPair.mk name · .synthetic) (placeless_valueExpression a.value)

theorem placeless_argumentPairs (attributes : List Attribute) :
    argumentPairs (attributes.map (·.placeless)) =
      (argumentPairs attributes).map (·.placeless) := by
  have hpair (a : Attribute) : (argumentName? a.placeless).map (attributePair · a.placeless) =
      ((argumentName? a).map (attributePair · a)).map (·.placeless) := by
    have hname : argumentName? a.placeless = argumentName? a := rfl
    rw [hname, Option.map_map]
    exact congrArg (Option.map · _) (funext fun name => placeless_attributePair name a)
  rw [argumentPairs, argumentPairs, List.filterMap_map, List.map_filterMap]
  exact congrArg (List.filterMap · attributes) (funext hpair)

theorem placeless_mergedAttributes (attributes : List Attribute) (hasSplat : Bool) :
    mergedAttributes (attributes.map (·.placeless)) hasSplat =
      (mergedAttributes attributes hasSplat).placeless := by
  have hpairs : (attributes.map (·.placeless)).map (fun a => attributePair a.name a) =
      (attributes.map fun a => attributePair a.name a).map (·.placeless) := by
    rw [List.map_map, List.map_map]
    exact List.map_congr_left fun a _ => placeless_attributePair a.name a
  rw [mergedAttributes, mergedAttributes, hpairs, List.isEmpty_map]
  cases attributes.isEmpty <;> cases hasSplat <;> simp

/-- Which attributes are filtered out is told by their names. -/
theorem filter_placeless (q : String → Bool) (attributes : List Attribute) :
    (attributes.map (·.placeless)).filter (fun a => q a.name) =
      (attributes.filter fun a => q a.name).map (·.placeless) := by
  rw [List.filter_map]
  rfl

theorem placeless_invocationHash (attributes : List Attribute) (hasSplat : Bool) :
    invocationHash (attributes.map (·.placeless)) hasSplat =
      (invocationHash attributes hasSplat).placeless := by
  have hown := filter_placeless (· != splatName) attributes
  have hplain (own : List Attribute) :
      (own.map (·.placeless)).filter (fun a => (argumentName? a).isNone) =
        (own.filter fun a => (argumentName? a).isNone).map (·.placeless) := by
    rw [List.filter_map]
    rfl
  rw [invocationHash, invocationHash, hown, hplain, List.isEmpty_map, placeless_argumentPairs,
    placeless_mergedAttributes, Build.placeless_hash, List.map_append]
  split <;> rfl

/-! ### Elements -/

/-- A form without places. -/
def Form.placeless : Form → Form
  | .markup e => .markup e.placeless
  | .inline call => .inline call.placeless
  | .around call => .around call.placeless

theorem Form.placeless_ofCall (selfClosing : Bool) (call : Call) :
    (ofCall selfClosing call).placeless = ofCall selfClosing call.placeless := by
  cases selfClosing <;> rfl

theorem placeless_applySplat (e : Element) :
    applySplat e.placeless = (applySplat e).placeless := by
  have hown := filter_placeless (· != splatName) e.attributes
  rw [applySplat, applySplat, Element.placeless_eq, Element.placeless_eq, hown, List.map_append]
  rfl

theorem hasSplat_placeless (e : Element) : hasSplat e.placeless = hasSplat e := by
  rw [hasSplat, Element.placeless_eq, List.any_map]
  rfl

/-- Without a text the recorded tag and flag decide. -/
theorem classify_placeless (e : Element) :
    classify .unavailable scope e.placeless = classify .unavailable scope e := by
  rw [classify, classify, hasSplat_placeless, Element.placeless_eq]
  rfl

/-- What a component is taken from has no place of its own. -/
theorem placeless_callee {tag : List Char} {selfClosing hasSplat closing splat : Bool}
    {callee : Callee}
    (h : classifyTag scope tag selfClosing hasSplat = .dynamic callee closing splat) :
    callee.expression.placeless = callee.expression := by
  simp only [classifyTag] at h
  split at h
  · cases h
    rfl
  split at h
  · cases h
    rfl
  split at h
  · cases h
    rfl
  split at h
  · cases h
  split at h
  · cases h
  · cases h
    rfl

theorem placeless_form (e : Element) :
    form .unavailable scope e.placeless = (form .unavailable scope e).placeless := by
  have hattributes : e.placeless.attributes = e.attributes.map (·.placeless) := by
    rw [Element.placeless_eq]
  have hcall (path : Expression) (params : List Expression) (hasSplat : Bool) :
      Call.placeless ⟨path, params, invocationHash e.attributes hasSplat⟩ =
        ⟨path.placeless, params.map (·.placeless),
          invocationHash e.placeless.attributes hasSplat⟩ := by
    rw [hattributes, placeless_invocationHash, Call.placeless, Call.strip_eq]
    rfl
  simp only [form, classify_placeless]
  cases hclassify : classify .unavailable scope e with
  | markup hasSplat =>
      cases hasSplat
      · rfl
      · exact congrArg Form.markup (placeless_applySplat e)
  | static name selfClosing hasSplat =>
      dsimp only
      rw [Form.placeless_ofCall, hcall, Build.placeless_path]
      rfl
  | dynamic callee selfClosing hasSplat =>
      dsimp only
      rw [Form.placeless_ofCall, hcall, Build.placeless_path, List.map_singleton,
        placeless_callee hclassify]

/-- At a synthetic span there is no text, whatever the source. -/
theorem textOf?_of_isSynthetic {span : Span} (h : span.isSynthetic = true) :
    source.textOf? span = none := by
  simp only [Source.textOf?, h, if_true]
  split <;> rfl

/-- An element with a synthetic span is judged as without a source. -/
theorem form_of_isSynthetic {e : Element} (h : e.loc.isSynthetic = true) :
    form source scope e = form .unavailable scope e := by
  have htext : source.textOf? e.loc = none := textOf?_of_isSynthetic h
  have htag : source.tagName e = Source.tagName .unavailable e := by
    rw [Source.tagName, htext, Source.tagName_unavailable]
  have hclosing : source.selfClosing e = Source.selfClosing .unavailable e := by
    rw [Source.selfClosing, Source.selfClosing, htext]
    rfl
  rw [form, form, classify, classify, htag, hclosing]

end Component

open Component (Scope Form form form_of_isSynthetic placeless_form)

variable {source : Source} {scope : Scope}

/-! ### Trees -/

theorem Program.lowered_placeless_of {p : Program}
    (h : ∀ s ∈ p.body, ∀ scope,
      s.placeless.lowered source scope = (s.lowered .unavailable scope).placeless) :
    p.placeless.lowered source scope = (p.lowered .unavailable scope).placeless := by
  rw [lowered_eq, lowered_eq, placeless_eq, placeless_eq]
  dsimp only
  rw [List.map_map, List.map_map]
  exact congrArg (Program.mk · p.blockParams .synthetic) (List.map_congr_left fun s hs => h s hs _)

/-- The form of an element decides what becomes of it with and without places. -/
theorem Statement.lowered_placeless (s : Statement) (scope : Scope) :
    s.placeless.lowered source scope = (s.lowered .unavailable scope).placeless := by
  induction s using Statement.induction generalizing scope with
  | element e ih =>
      have hloc : e.placeless.loc = .synthetic := by rw [Element.placeless_eq]
      have hform : form source scope e.placeless = (form .unavailable scope e).placeless := by
        rw [form_of_isSynthetic (by rw [hloc, Span.isSynthetic_synthetic]), placeless_form]
      have hchildren (scope : Scope) :
          e.placeless.children.map (Statement.lowered source scope) =
            (e.children.map (Statement.lowered .unavailable scope)).map (·.placeless) := by
        rw [Element.placeless_eq, List.map_map, List.map_map]
        exact List.map_congr_left fun s hs => ih s hs scope
      rw [placeless]
      cases hkind : form .unavailable scope e with
      | markup kept =>
          rw [hkind] at hform
          rw [lowered_markup hform, lowered_markup hkind, hchildren, placeless,
            Element.placeless_eq, Element.placeless_eq]
      | inline call =>
          rw [hkind] at hform
          rw [lowered_inline hform, lowered_inline hkind, hloc]
          rfl
      | around call =>
          rw [hkind] at hform
          have hparams : e.placeless.blockParams = e.blockParams := by rw [Element.placeless_eq]
          rw [lowered_around hform, lowered_around hkind, hloc, hparams, hchildren, placeless,
            Block.placeless_eq]
          dsimp only [Build.block, Build.program]
          rw [Program.placeless_eq]
          rfl
  | block b ihprogram ihinverse =>
      have hprogram : b.program.placeless.lowered source scope =
          (b.program.lowered .unavailable scope).placeless :=
        Program.lowered_placeless_of ihprogram
      have hinverse : (b.inverse.map (·.placeless)).map (Program.lowered source scope) =
          (b.inverse.map (Program.lowered .unavailable scope)).map (·.placeless) := by
        cases hp : b.inverse with
        | none => rfl
        | some p => exact congrArg some (Program.lowered_placeless_of (ihinverse p hp))
      rw [placeless, lowered_block, lowered_block, placeless, Block.placeless_eq,
        Block.placeless_eq]
      dsimp only
      rw [hprogram, hinverse]
  | mustache | text | comment | mustacheComment => rfl

/-- Every element among some nodes has a synthetic span. -/
def OnlySynthetic (nodes : List (Scope × Statement)) : Prop :=
  ∀ names e, (names, Statement.element e) ∈ nodes → e.loc.isSynthetic = true

namespace Component

/-- A tree without places is lowered to the lowered tree without places, whatever text comes
with it; an empty text is none. A tree whose elements have synthetic spans is lowered the
same whatever text comes with it. -/
theorem lower_placeless (contents : Option String) (p : Program) :
    lower (Source.ofText contents) p.placeless = (lower (Source.ofText none) p).placeless ∧
    lower (Source.ofText contents) p.placeless = (lower (Source.ofText (some "")) p).placeless ∧
    (OnlySynthetic (p.nodes .empty) →
      lower (Source.ofText contents) p = lower (Source.ofText none) p) := by
  have hplaceless : lower (Source.ofText contents) p.placeless =
      (lower .unavailable p).placeless := by
    rw [lower_eq_lowered, lower_eq_lowered]
    exact Program.lowered_placeless_of fun s _ scope => s.lowered_placeless scope
  refine ⟨hplaceless, hplaceless, fun h => ?_⟩
  have hforms : SameForms (Source.ofText contents) .unavailable (· = ·) (p.nodes .empty) := by
    rintro names e he scope _ rfl
    exact form_of_isSynthetic (h names e he)
  rw [lower_eq_lowered, lower_eq_lowered]
  exact p.lowered_eq_of_sameForms (fun _ _ names h => congrArg (·.push names) h) hforms rfl

/-- A component whose span names the first ten characters of a text, but has the synthetic
source. -/
def misplaced : Program :=
  Build.program [.element (Build.element "FooBar" ⟨some Span.syntheticSource, ⟨1, 0⟩, ⟨1, 10⟩⟩)] []

theorem onlySynthetic_misplaced : OnlySynthetic (misplaced.nodes .empty) := by
  intro names e he
  obtain ⟨s, hs, he⟩ := Program.mem_nodes.mp he
  cases List.mem_singleton.mp hs
  cases List.mem_singleton.mp he
  rfl

/-- The other tag in the text is not taken for that of the component. -/
theorem lower_placeless_misplaced :
    OnlySynthetic (misplaced.nodes .empty) ∧
      lower (Source.ofText (some "<other @a=1 />")) misplaced =
        lower (Source.ofText none) misplaced :=
  ⟨onlySynthetic_misplaced,
    (lower_placeless (some "<other @a=1 />") misplaced).2.2 onlySynthetic_misplaced⟩

end Component

end CurlyTemplate
