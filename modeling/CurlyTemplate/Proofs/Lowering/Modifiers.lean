import CurlyTemplate.Proofs.Lowering.Places

/-!
# Modifiers of lowered elements

Markup keeps its modifiers, in order and in front of the one that lowering may add. In the
place of a component stands a mustache or a block, which has no room for modifiers and takes
none over: it is the same whatever modifiers the element has (`modifiers_lower`), so that an
event handler on a component is lost (`not_keepsModifiers_handled`).
-/

namespace CurlyTemplate

open Component (Scope form form_of_markup form_of_isComponent form_eq_markup_iff isComponent
  lower classify)

/-- A call is an expression or stands inside of it. -/
inductive Call.Inside (c : Call) : Expression → Prop
  | here {loc : Span} : Inside c (.sub c loc)
  | path {d : Call} {loc : Span} (h : Inside c d.path) : Inside c (.sub d loc)
  | param {d : Call} {loc : Span} {e : Expression} (he : e ∈ d.params) (h : Inside c e) :
      Inside c (.sub d loc)
  | pair {d : Call} {loc : Span} {p : HashPair} (hp : p ∈ d.hash.pairs) (h : Inside c p.value) :
      Inside c (.sub d loc)

/-- A call is another one or stands inside of it. -/
def Call.Within (c d : Call) : Prop := c.Inside (.sub d .synthetic)

theorem Call.within_iff {c d : Call} :
    c.Within d ↔ c = d ∨ c.Inside d.path ∨ (∃ e ∈ d.params, c.Inside e) ∨
      ∃ p ∈ d.hash.pairs, c.Inside p.value := by
  constructor
  · intro h
    cases h with
    | here => exact .inl rfl
    | path h => exact .inr (.inl h)
    | param he h => exact .inr (.inr (.inl ⟨_, he, h⟩))
    | pair hp h => exact .inr (.inr (.inr ⟨_, hp, h⟩))
  · rintro (rfl | h | ⟨e, he, h⟩ | ⟨p, hp, h⟩)
    · exact .here
    · exact .path h
    · exact .param he h
    · exact .pair hp h

def AttributeValue.Holds (c : Call) : AttributeValue → Prop
  | .text _ => False
  | .mustache m => c.Within m.call
  | .concat parts _ => ∃ m, .mustache m ∈ parts ∧ c.Within m.call

/-- A node holds a call, in itself and not in the nodes below. -/
def Statement.Holds (c : Call) : Statement → Prop
  | .element e => (∃ m ∈ e.modifiers, c.Within m.call) ∨ ∃ a ∈ e.attributes, a.value.Holds c
  | .mustache m => c.Within m.call
  | .block b => c.Within b.call
  | _ => False

variable {source : Source} {scope : Scope} {p : Program} {e : Element} {y : Statement}

/-- Lowering puts its own modifier behind those that are there. -/
theorem modifiers_prefix_of_form {kept : Element} (h : form source scope e = .markup kept) :
    e.modifiers <+: kept.modifiers := by
  rcases form_eq_markup_iff.mp h with ⟨-, rfl⟩ | ⟨-, rfl⟩
  · exact List.prefix_refl _
  · exact List.prefix_append _ _

theorem exists_kept_of_markup (h : isComponent source scope e = false) :
    ∃ kept, (Statement.element e).lowered source scope = .element kept ∧
      e.modifiers <+: kept.modifiers := by
  obtain ⟨kept, hform⟩ := form_of_markup h
  have hprefix := modifiers_prefix_of_form hform
  exact ⟨_, Statement.lowered_markup hform, hprefix⟩

theorem exists_call_of_isComponent (h : isComponent source scope e = true) :
    (∃ m, (Statement.element e).lowered source scope = .mustache m) ∨
      ∃ b, (Statement.element e).lowered source scope = .block b := by
  rcases form_of_isComponent h with ⟨-, call, hform⟩ | ⟨-, call, hform⟩
  · exact .inl ⟨_, Statement.lowered_inline hform⟩
  · exact .inr ⟨_, Statement.lowered_around hform⟩

theorem form_with_modifiers (h : isComponent source scope e = true) (modifiers : List Modifier) :
    form source scope { e with modifiers := modifiers } = form source scope e := by
  have hsame : classify source scope { e with modifiers := modifiers } = classify source scope e :=
    rfl
  simp only [form, hsame]
  simp only [isComponent] at h
  cases hclassify : classify source scope e with
  | markup hasSplat => simp [hclassify, Component.Invocation.closing?] at h
  | static name selfClosing hasSplat => rfl
  | dynamic callee selfClosing hasSplat => rfl

/-- What takes the place of a component does not depend on the modifiers. -/
theorem lowered_with_modifiers (h : isComponent source scope e = true)
    (modifiers : List Modifier) :
    (Statement.element { e with modifiers := modifiers }).lowered source scope =
      (Statement.element e).lowered source scope := by
  have hsame := form_with_modifiers h modifiers
  rcases form_of_isComponent h with ⟨-, call, hform⟩ | ⟨-, call, hform⟩
  · rw [Statement.lowered_inline hform, Statement.lowered_inline (hsame.trans hform)]
  · rw [Statement.lowered_around hform, Statement.lowered_around (hsame.trans hform)]

/-- Every element has its place in the lowered tree unless it lies below one that has become
a mustache. In its place stands the element with its modifiers in front, if it is markup; if
it is a component, a mustache or a block, which does not depend on its modifiers. -/
theorem modifiers_lower (source : Source) (p : Program) :
    (∀ names e, (names, Statement.element e) ∈ p.nodes .empty →
      (∃ scope y, Facing p (lower source p) scope (.element e) y) ∨
        ∃ scope d m, Facing p (lower source p) scope (.element d) (.mustache m) ∧
          ∃ s ∈ d.children, ∃ inner outer, (inner, Statement.element e) ∈ s.nodes outer) ∧
    ∀ scope e y, Facing p (lower source p) scope (.element e) y →
      (isComponent source scope e = false →
        ∃ kept, y = .element kept ∧ e.modifiers <+: kept.modifiers) ∧
      (isComponent source scope e = true →
        ((∃ m, y = .mustache m) ∨ ∃ b, y = .block b) ∧ ∀ modifiers,
          y = (Statement.element { e with modifiers := modifiers }).lowered source scope) := by
  refine ⟨fun names e he => ?_, fun scope e y hy => ?_⟩
  · obtain ⟨s, hs, he⟩ := Program.mem_nodes.mp he
    exact facing_or_below s (.body_lower hs) he
  · rw [hy.eq_lowered]
    refine ⟨exists_kept_of_markup, fun h => ⟨exists_call_of_isComponent h, fun modifiers => ?_⟩⟩
    exact (lowered_with_modifiers h modifiers).symm

/-- `{{on "click" this.go}}` -/
def onClick : Modifier :=
  Build.modifier ⟨Build.path "on", [Build.string "click", Build.path "this.go"], Build.hash []⟩

/-- `<FooBar {{on "click" this.go}} />` -/
def handledComponent : Element :=
  { Build.element "FooBar" .synthetic with modifiers := [onClick], selfClosing := some true }

/-- Markup with the same handler around the component. -/
def handledMarkup : Element :=
  { Build.element "div" .synthetic with
    modifiers := [onClick], children := [.element handledComponent] }

def handled : Program := Build.program [.element handledMarkup] []

theorem facing_handledMarkup :
    Facing handled (lower .unavailable handled) .empty (.element handledMarkup)
      ((Statement.element handledMarkup).lowered .unavailable .empty) :=
  .body_lower (List.mem_singleton_self _)

theorem facing_handledComponent :
    Facing handled (lower .unavailable handled) .empty (.element handledComponent)
      ((Statement.element handledComponent).lowered .unavailable .empty) := by
  have hform : form .unavailable .empty handledMarkup = .markup handledMarkup := rfl
  exact facing_handledMarkup.child_lowered hform (List.mem_singleton_self _)

theorem modifiers_lower_handled :
    (∃ kept, Facing handled (lower .unavailable handled) .empty (.element handledMarkup)
      (.element kept) ∧ [onClick] <+: kept.modifiers) ∧
    ∃ y, Facing handled (lower .unavailable handled) .empty (.element handledComponent) y ∧
      ((∃ m, y = .mustache m) ∨ ∃ b, y = .block b) ∧ ∀ modifiers, y =
        (Statement.element { handledComponent with modifiers := modifiers }).lowered
          .unavailable .empty := by
  have hplaces := (modifiers_lower .unavailable handled).2
  obtain ⟨kept, hkept, hprefix⟩ := (hplaces _ _ _ facing_handledMarkup).1 (by decide)
  have hmarkup := facing_handledMarkup
  rw [hkept] at hmarkup
  have hcomponent := (hplaces _ _ _ facing_handledComponent).2 (by decide)
  exact ⟨⟨kept, hmarkup, hprefix⟩, _, facing_handledComponent, hcomponent⟩

/-- Each modifier of an element is found in what stands in the place of the element: among
the modifiers of an element, or anywhere inside of a call. -/
def KeepsModifiers (source : Source) (p : Program) : Prop :=
  ∀ scope e y, Facing p (lower source p) scope (.element e) y → ∀ m ∈ e.modifiers,
    match y with
    | .element kept => ∃ n ∈ kept.modifiers, n.call = m.call
    | y => ∃ node ∈ y.nodes scope, node.2.Holds m.call

theorem not_keepsModifiers_handled : ¬ KeepsModifiers .unavailable handled := by
  intro h
  have hfound := h _ _ _ facing_handledComponent onClick (List.mem_singleton_self _)
  obtain ⟨node, hnode, hholds⟩ := hfound
  cases List.mem_singleton.mp hnode
  have hwithin : onClick.call.Within ⟨Build.path "foo-bar", [], Build.hash []⟩ := hholds
  rcases Call.within_iff.mp hwithin with heq | hpath | ⟨param, hparam, -⟩ | ⟨pair, hpair, -⟩
  · cases congrArg Call.params heq
  · cases hpath
  · cases hparam
  · cases hpair

end CurlyTemplate
