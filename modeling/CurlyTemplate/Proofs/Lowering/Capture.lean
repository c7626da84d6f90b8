import CurlyTemplate.Proofs.Lowering.Callees
import CurlyTemplate.Proofs.Lowering.Places

/-!
# Capture

Lowering puts paths in front of calls that are meant to be looked up among all components
and helpers. The tag of an element is looked up among the names in scope as it was
written; the dashed name and the helpers that take its place are not looked up again. A
block param can therefore capture them, and this happens just when it is spelled like a
helper or like the dashed name.
-/

namespace CurlyTemplate

open Component (Scope lower lower_eq_lowered)

/-- The call that a statement is. -/
def Statement.call? : Statement → Option Call
  | .mustache m => some m.call
  | .block b => some b.call
  | _ => none

/-- The names that a statement brings into scope for those inside it. -/
def Statement.brings : Statement → List String
  | .element e => e.blockParams
  | .block b => b.program.blockParams ++ b.inverse.elim [] Program.blockParams
  | _ => []

/-- All block params of a program. -/
def Program.declared (p : Program) : List String :=
  p.blockParams ++ (p.nodes .empty).flatMap (·.2.brings)

variable {source : Source} {p q : Program} {scope : Scope} {x y : Statement} {name : String}

namespace Facing

theorem mem_declared_of_brings (h : Facing p q scope x y) (hname : name ∈ x.brings) :
    name ∈ p.declared := by
  obtain ⟨names, hx⟩ := h.exists_mem_nodes
  exact List.mem_append_right _ (List.mem_flatMap.mpr ⟨_, hx, hname⟩)

/-- Lowering moves block params from elements to blocks and makes none. -/
theorem mem_declared (h : Facing p (lower source p) scope x y) (hname : name ∈ scope.names) :
    name ∈ p.declared := by
  have hinner {scope : Scope} {names : List String} (ih : name ∈ scope.names → name ∈ p.declared)
      (hnames : name ∈ names → name ∈ p.declared) (h : name ∈ (scope.push names).names) :
      name ∈ p.declared := by
    rcases List.mem_append.mp h with h | h
    · exact ih h
    · exact hnames h
  induction h with
  | body _ _ =>
      rw [lower_eq_lowered, Program.blockParams_lowered] at hname
      exact List.mem_append_left _ hname
  | child _ _ _ ih => exact ih hname
  | taken h _ _ ih =>
      refine hinner ih (fun hb => h.mem_declared_of_brings ?_) hname
      rw [Statement.block_of_lowered h.eq_lowered] at hb
      exact hb
  | program h _ _ ih =>
      refine hinner ih (fun hb => h.mem_declared_of_brings ?_) hname
      cases h.eq_lowered.trans (Statement.lowered_block _)
      rw [Program.blockParams_lowered] at hb
      exact List.mem_append_left _ hb
  | inverse h hr hs _ _ ih =>
      refine hinner ih (fun hb => h.mem_declared_of_brings ?_) hname
      cases h.eq_lowered.trans (Statement.lowered_block _)
      rw [hr] at hs
      cases hs
      rw [Program.blockParams_lowered] at hb
      refine List.mem_append_right _ ?_
      rw [hr]
      exact hb

end Facing

namespace Component

/-- The helpers that lowering may put in front of a call. -/
def helperNames : List String := [componentHelper, concatHelper, mergeHelper, hashHelper]

/-- The name is the dashed spelling of the first part of a tag. The part itself, as it was
written, is not in scope. -/
def Respelled (scope : Scope) (tag : List Char) (name : String) : Prop :=
  name = String.ofList (Text.dashed false (Text.headSegment '.' tag)) ∧
    scope.contains (String.ofList (Text.headSegment '.' tag)) = false

theorem headSegment_helper : ∀ helper ∈ helperNames,
    String.ofList (Text.headSegment '.' helper.toList) = helper := by decide

theorem attributeHelpers_subset (attributes : List Attribute) (hasSplat : Bool) :
    attributeHelpers attributes hasSplat ⊆ helperNames := by
  intro helper h
  rw [attributeHelpers, List.mem_append, List.mem_append] at h
  rcases h with (h | h) | h
  all_goals
    split at h <;> simp_all [helperNames]

theorem callee?_classifyTag {tag : List Char} {closing splat : Bool}
    (h : (classifyTag scope tag closing splat).callee? = some name) :
    name = componentHelper ∨ name = String.ofList (Text.dashed false tag) ∧
      scope.contains (String.ofList (Text.headSegment '.' tag)) = false := by
  simp only [classifyTag] at h
  split at h
  · exact .inl (Option.some.inj h).symm
  split at h
  · exact .inl (Option.some.inj h).symm
  split at h
  · exact .inl (Option.some.inj h).symm
  case isFalse hscope =>
    split at h
    · cases h
    split at h
    · exact .inr ⟨(Option.some.inj h).symm, by simpa using hscope⟩
    · exact .inl (Option.some.inj h).symm

theorem mem_helperNames_or_respelled {e : Element} {path : Path}
    (h : path ∈ introduced source scope e) (hname : path.localName? = some name) :
    name ∈ helperNames ∨ Respelled scope (source.tagName e) name := by
  have hhelper {helper : String} (hmem : helper ∈ helperNames)
      (hpath : Path.ofString helper .synthetic = path) : name ∈ helperNames := by
    subst hpath
    rw [Path.localName?_ofChars hname, headSegment_helper helper hmem]
    exact hmem
  rw [introduced] at h
  split at h
  · cases h
  case h_2 callee hcallee =>
    obtain ⟨written, hwritten, hpath⟩ := List.mem_map.mp h
    rcases List.mem_cons.mp hwritten with rfl | hwritten
    · rcases callee?_classifyTag hcallee with rfl | ⟨hdashed, hscope⟩
      · exact .inl (hhelper (List.mem_cons_self ..) hpath)
      · subst hpath
        have hhead := Path.localName?_ofChars hname
        rw [hdashed, String.toList_ofList, Text.headSegment_dashed] at hhead
        exact .inr ⟨hhead, hscope⟩
    · exact .inl (hhelper (attributeHelpers_subset _ _ hwritten) hpath)

/-- The call in the place of an element is the one that its form holds. -/
theorem form_of_call?_lowered {e : Element} {call : Call}
    (h : ((Statement.element e).lowered source scope).call? = some call) :
    form source scope e = .inline call ∨ form source scope e = .around call := by
  cases hform : form source scope e with
  | markup kept =>
      rw [Statement.lowered_markup hform] at h
      cases h
  | inline c =>
      rw [Statement.lowered_inline hform] at h
      exact .inl (congrArg Form.inline (Option.some.inj h))
  | around c =>
      rw [Statement.lowered_around hform] at h
      exact .inr (congrArg Form.around (Option.some.inj h))

/-- Where a call in a lowered tree comes from. Either the author wrote it, or it stands for
an element; then it calls what the author calls in the attributes and what lowering
introduces, and a name in scope captures the latter only if it is a block param of the
program that is spelled like a helper or like the dashed name of the tag. -/
theorem callees_of_mem_nodes_lower {call : Call}
    (hy : (scope, y) ∈ (lower source p).nodes .empty) (hcall : y.call? = some call) :
    (∃ x, Facing p (lower source p) scope x y ∧ x.call? = some call) ∨
      ∃ e, Facing p (lower source p) scope (.element e) y ∧
        (∀ path, path ∈ call.callees ↔ path ∈ introduced source scope e ∨
          ∃ a ∈ ownAttributes e.attributes, path ∈ a.value.callees) ∧
        ∀ path ∈ introduced source scope e, ∀ name ∈ scope.names,
          path.localName? = some name →
            name ∈ p.declared ∧
              (name ∈ helperNames ∨ Respelled scope (source.tagName e) name) := by
  obtain ⟨x, hx⟩ := exists_facing hy
  have heq := hx.eq_lowered
  subst heq
  cases x with
  | element e =>
      refine .inr ⟨e, hx, fun path => mem_callees_of_form (form_of_call?_lowered hcall), ?_⟩
      intro path hpath name hscope hname
      exact ⟨hx.mem_declared hscope, mem_helperNames_or_respelled hpath hname⟩
  | block b =>
      rw [Statement.lowered_block] at hcall
      exact .inl ⟨_, hx, hcall⟩
  | mustache | text | comment | mustacheComment => exact .inl ⟨_, hx, hcall⟩

/-- `{{#let x as |foo-bar|}}<FooBar />{{/let}}` -/
def captured : Program :=
  let invocation := { Build.element "FooBar" .synthetic with selfClosing := some true }
  Build.program
    [.block (Build.block ⟨Build.path "let", [Build.path "x"], Build.hash []⟩
      (Build.program [.element invocation] ["foo-bar"]) none .synthetic)]
    []

/-- The curly call in the block stands for the element and is captured. -/
theorem callees_of_mem_nodes_lower_captured :
    ∃ call y, (⟨["foo-bar"]⟩, y) ∈ (lower .unavailable captured).nodes .empty ∧
      y.call? = some call ∧ (Path.ofString "foo-bar" .synthetic) ∈ call.callees ∧
      ((∃ x, Facing captured (lower .unavailable captured) ⟨["foo-bar"]⟩ x y ∧
          x.call? = some call) ∨
        ∃ e, Facing captured (lower .unavailable captured) ⟨["foo-bar"]⟩ (.element e) y ∧
          (∀ path, path ∈ call.callees ↔ path ∈ introduced .unavailable ⟨["foo-bar"]⟩ e ∨
            ∃ a ∈ ownAttributes e.attributes, path ∈ a.value.callees) ∧
          ∀ path ∈ introduced .unavailable ⟨["foo-bar"]⟩ e, ∀ name ∈ ["foo-bar"],
            path.localName? = some name →
              name ∈ captured.declared ∧ (name ∈ helperNames ∨
                Respelled ⟨["foo-bar"]⟩ (Source.unavailable.tagName e) name)) := by
  have h : (⟨["foo-bar"]⟩, Statement.mustache
      (Build.mustache ⟨Build.path "foo-bar", [], Build.hash []⟩ .synthetic)) ∈
        (lower .unavailable captured).nodes .empty :=
    List.mem_cons_of_mem _ List.mem_cons_self
  exact ⟨_, _, h, rfl, List.mem_cons_self, callees_of_mem_nodes_lower h rfl⟩

/-- No path that lowering introduces starts with a block param of a program around it. -/
def Hygienic (source : Source) (p : Program) : Prop :=
  ∀ scope e y, Facing p (lower source p) scope (.element e) y →
    ∀ path ∈ introduced source scope e, ∀ name ∈ scope.names, path.localName? ≠ some name

theorem not_hygienic_captured : ¬ Hygienic .unavailable captured := by
  intro h
  have hblock : Facing captured (lower .unavailable captured) .empty _ _ :=
    .body (i := 0) rfl rfl
  have helement := Facing.program (i := 0) hblock rfl rfl
  exact h _ _ _ helement _ List.mem_cons_self "foo-bar" List.mem_cons_self rfl

end Component

end CurlyTemplate
