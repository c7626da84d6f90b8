import CurlyTemplate.Proofs.Lowering.Capture
import CurlyTemplate.Proofs.Lowering.Content
import CurlyTemplate.Proofs.Lowering.NormalForm
import CurlyTemplate.Proofs.Tree.Statements
import Mathlib.Data.List.Forall2

/-!
# What lowering leaves as it is

Each statement of a lowered tree stands for one statement of the tree, in the same order,
and only what lies below an element that becomes a call in curlies has none (`survivors`).
Markup is edited in two of its parts: it loses the attributes that forward those of the
caller, and has a modifier instead (`Element.Edited`). A block changes inside of its bodies
alone (`Block.Reframed`), and what holds no statements does not change at all.
`retained_lower` says so for all places of all trees.
-/

namespace CurlyTemplate

open Component (Scope form isComponent form_cases form_eq_markup_iff classify
  classify_eq_markup_iff lowerElement lowerElement_classify lower lower_eq_lowered)

/-- Markup `d` as it comes out of lowering, apart from its children. -/
structure Element.Edited (d e : Element) : Prop where
  tag : e.tag = d.tag
  blockParams : e.blockParams = d.blockParams
  selfClosing : e.selfClosing = d.selfClosing
  loc : e.loc = d.loc
  extra : e.extra = d.extra
  attributes : e.attributes = d.attributes.filter (·.name != "...attributes")
  modifiers : e.modifiers = d.modifiers ++
    if d.attributes.any (·.name == "...attributes") then
      [Build.modifier
        ⟨Build.path "_splattributes", [Build.path "__ANGLE_ATTRS__"], Build.hash []⟩]
    else []

/-- Block `b` as it comes out of lowering, apart from what is inside its bodies. -/
structure Block.Reframed (b c : Block) : Prop where
  call : c.call = b.call
  program : c.program.blockParams = b.program.blockParams
  inverse : c.inverse.map Program.blockParams = b.inverse.map Program.blockParams
  loc : c.loc = b.loc
  extra : c.extra = b.extra

/-- What a statement has in common with the one that stands for it in the lowered tree. -/
inductive Statement.Retained (source : Source) (scope : Scope) : Statement → Statement → Prop
  | markup {d e : Element} (h : isComponent source scope d = false) (hedited : d.Edited e) :
      Retained source scope (.element d) (.element e)
  | component {d : Element} {y : Statement} {call : Call}
      (h : isComponent source scope d = true) (hcall : y.call? = some call) :
      Retained source scope (.element d) y
  | mustache (m : Mustache) : Retained source scope (.mustache m) (.mustache m)
  | block {b c : Block} (h : b.Reframed c) : Retained source scope (.block b) (.block c)
  | content {x : Statement} (h : x.isContent = true) : Retained source scope x x

mutual

/-- The statements that do not lie below an element that becomes a call in curlies, in the
order of the text, each with the names in scope that the lowering sees. -/
def Statement.survivors (source : Source) (scope : Scope) :
    Statement → List (Scope × Statement)
  | .element e@⟨_, _, _, children, _, _, _, _⟩ =>
      (scope, .element e) ::
        if inlined source scope e then []
        else survivorsOfStatements source (scopeInside source scope e) children
  | .block b@⟨_, program, inverse, _, _⟩ =>
      (scope, .block b) ::
        (program.survivors source scope ++ survivorsOfInverse source scope inverse)
  | other => [(scope, other)]

def survivorsOfStatements (source : Source) (scope : Scope) :
    List Statement → List (Scope × Statement)
  | [] => []
  | s :: rest => s.survivors source scope ++ survivorsOfStatements source scope rest

def Program.survivors (source : Source) (scope : Scope) : Program → List (Scope × Statement)
  | ⟨body, blockParams, _⟩ => survivorsOfStatements source (scope.push blockParams) body

def survivorsOfInverse (source : Source) (scope : Scope) :
    Option Program → List (Scope × Statement)
  | none => []
  | some p => p.survivors source scope

end

/-- What does not survive with a statement: all that lies below it, if it becomes a call in
curlies. -/
def Statement.hidden (source : Source) (scope : Scope) : Statement → List Statement
  | .element e =>
      if inlined source scope e then e.children.flatMap Statement.statements else []
  | _ => []

variable {source : Source} {scope : Scope}

theorem survivorsOfStatements_eq_flatMap (statements : List Statement) :
    survivorsOfStatements source scope statements =
      statements.flatMap (Statement.survivors source scope) := by
  induction statements with
  | nil => rfl
  | cons s rest ih => rw [survivorsOfStatements, List.flatMap_cons, ih]

theorem Program.survivors_eq (p : Program) :
    p.survivors source scope =
      p.body.flatMap (Statement.survivors source (scope.push p.blockParams)) := by
  cases p
  exact survivorsOfStatements_eq_flatMap _

theorem Statement.survivors_element (e : Element) :
    (Statement.element e).survivors source scope =
      (scope, .element e) ::
        if inlined source scope e then []
        else e.children.flatMap (Statement.survivors source (scopeInside source scope e)) := by
  cases e
  rw [Statement.survivors, survivorsOfStatements_eq_flatMap]

theorem Statement.survivors_block (b : Block) :
    (Statement.block b).survivors source scope =
      (scope, .block b) :: (b.program.survivors source scope ++
        b.inverse.elim [] (Program.survivors source scope)) := by
  obtain ⟨call, program, inverse, loc, extra⟩ := b
  cases inverse <;> rfl

section Completeness

/-- Some statements, each followed by what does not survive with it. -/
def withHidden (source : Source) (survivors : List (Scope × Statement)) : List Statement :=
  survivors.flatMap fun x => x.2 :: x.2.hidden source x.1

theorem withHidden_cons (x : Scope × Statement) (rest : List (Scope × Statement)) :
    withHidden source (x :: rest) = x.2 :: (x.2.hidden source x.1 ++ withHidden source rest) :=
  List.flatMap_cons

theorem withHidden_append (survivors others : List (Scope × Statement)) :
    withHidden source (survivors ++ others) =
      withHidden source survivors ++ withHidden source others :=
  List.flatMap_append

theorem withHidden_flatMap (f : Statement → List (Scope × Statement))
    (statements : List Statement) :
    withHidden source (statements.flatMap f) =
      statements.flatMap fun s => withHidden source (f s) :=
  List.flatMap_assoc

theorem withHidden_survivors_program {p : Program}
    (h : ∀ s ∈ p.body, ∀ scope, withHidden source (s.survivors source scope) = s.statements) :
    withHidden source (p.survivors source scope) = p.statements := by
  rw [Program.survivors_eq, withHidden_flatMap, p.statements_eq]
  exact List.flatMap_congr fun s hs => h s hs _

theorem withHidden_survivors (s : Statement) (scope : Scope) :
    withHidden source (s.survivors source scope) = s.statements := by
  induction s using Statement.induction generalizing scope with
  | element e ih =>
      rw [Statement.survivors_element, withHidden_cons, Statement.statements_eq,
        Statement.hidden]
      split
      · exact congrArg _ (List.append_nil _)
      · rw [withHidden_flatMap]
        exact congrArg _ (List.flatMap_congr fun s hs => ih s hs _)
  | block b ihprogram ihinverse =>
      rw [Statement.survivors_block, withHidden_cons, withHidden_append,
        withHidden_survivors_program ihprogram, Statement.statements_eq, Statement.parts_block,
        List.flatMap_append, ← b.program.statements_eq]
      cases hinverse : b.inverse with
      | none => rfl
      | some p =>
          have hp : withHidden source (p.survivors source scope) = p.statements :=
            withHidden_survivors_program (ihinverse p hinverse)
          rw [Option.elim_some, hp, p.statements_eq]
          rfl
  | mustache | text | comment | mustacheComment => rfl

end Completeness

theorem edited_of_form {d e : Element} (h : form source scope d = .markup e)
    (children : List Statement) : d.Edited { e with children := children } := by
  rcases form_eq_markup_iff.mp h with ⟨hclassify, rfl⟩ | ⟨hclassify, rfl⟩
  · have hsplat : d.attributes.any (·.name == "...attributes") = false :=
      (classify_eq_markup_iff.mp hclassify).2
    refine ⟨rfl, rfl, rfl, rfl, rfl, ?_, ?_⟩
    · have hnone : ∀ a ∈ d.attributes, (a.name != "...attributes") = true := by
        simpa using hsplat
      exact (List.filter_eq_self.mpr hnone).symm
    · rw [hsplat]
      exact (List.append_nil _).symm
  · have hsplat : d.attributes.any (·.name == "...attributes") = true :=
      (classify_eq_markup_iff.mp hclassify).2
    refine ⟨rfl, rfl, rfl, rfl, rfl, rfl, ?_⟩
    rw [hsplat]
    rfl

theorem reframed_lowered (b : Block) :
    b.Reframed { b with
      program := b.program.lowered source scope
      inverse := b.inverse.map (Program.lowered source scope) } := by
  refine ⟨rfl, Program.blockParams_lowered _, ?_, rfl, rfl⟩
  rw [Option.map_map]
  exact Option.map_congr fun p _ => p.blockParams_lowered

section Places

/-- One statement stands for the other, and at both the same names are in scope. -/
def StandsFor (source : Source) (x y : Scope × Statement) : Prop :=
  x.1 = y.1 ∧ x.2.Retained source x.1 y.2

theorem forall₂_flatMap {α β : Type} {R : α → β → Prop} {f : Statement → List α}
    {g : Statement → List β} {statements : List Statement}
    (h : ∀ s ∈ statements, List.Forall₂ R (f s) (g s)) :
    List.Forall₂ R (statements.flatMap f) (statements.flatMap g) := by
  induction statements with
  | nil => exact .nil
  | cons s rest ih =>
      obtain ⟨hs, hrest⟩ := List.forall_mem_cons.mp h
      rw [List.flatMap_cons, List.flatMap_cons]
      exact List.rel_append hs (ih hrest)

theorem forall₂_program {p : Program}
    (h : ∀ s ∈ p.body, ∀ scope, List.Forall₂ (StandsFor source) (s.survivors source scope)
      ((s.lowered source scope).nodes scope)) :
    List.Forall₂ (StandsFor source) (p.survivors source scope)
      ((p.lowered source scope).nodes scope) := by
  rw [Program.survivors_eq, Program.lowered_eq, Program.nodes_eq, List.flatMap_map]
  exact forall₂_flatMap fun s hs => h s hs _

theorem forall₂_survivors (s : Statement) (scope : Scope) :
    List.Forall₂ (StandsFor source) (s.survivors source scope)
      ((s.lowered source scope).nodes scope) := by
  induction s using Statement.induction generalizing scope with
  | element e ih =>
      rw [Statement.survivors_element, inlined, scopeInside]
      rcases form_cases source scope e with ⟨hcomponent, kept, hform⟩ |
        ⟨hcomponent, hclosing, call, hform⟩ | ⟨hcomponent, hclosing, call, hform⟩
      · rw [Statement.lowered_markup hform, Statement.nodes_element, List.flatMap_map, hcomponent]
        refine .cons ⟨rfl, .markup hcomponent (edited_of_form hform _)⟩ ?_
        exact forall₂_flatMap fun s hs => ih s hs scope
      · rw [Statement.lowered_inline hform, hcomponent, hclosing]
        exact .cons ⟨rfl, .component hcomponent rfl⟩ .nil
      · rw [Statement.lowered_around hform, Statement.nodes_block, Program.nodes_eq, hcomponent,
          hclosing]
        refine .cons ⟨rfl, .component hcomponent rfl⟩ ?_
        simp only [Build.block, Build.program, Option.elim_none, List.append_nil,
          List.flatMap_map]
        exact forall₂_flatMap fun s hs => ih s hs _
  | block b ihprogram ihinverse =>
      rw [Statement.survivors_block, Statement.lowered_block, Statement.nodes_block]
      refine .cons ⟨rfl, .block (reframed_lowered b)⟩ ?_
      refine List.rel_append (forall₂_program ihprogram) ?_
      cases hinverse : b.inverse with
      | none => exact .nil
      | some p => exact forall₂_program (ihinverse p hinverse)
  | mustache m => exact .cons ⟨rfl, .mustache m⟩ .nil
  | text | comment | mustacheComment => exact .cons ⟨rfl, .content rfl⟩ .nil

end Places

theorem inlined_iff_replace {e : Element} :
    inlined source scope e = true ↔
      ∃ m, (lowerElement e (classify source scope e)).1 = .replace (.mustache m) := by
  have hlower := lowerElement_classify source scope e
  rw [inlined]
  rcases form_cases source scope e with ⟨hcomponent, kept, hform⟩ |
    ⟨hcomponent, hclosing, call, hform⟩ | ⟨hcomponent, hclosing, call, hform⟩
  · simp only [hform] at hlower
    simp [hcomponent, hlower]
  · simp only [hform] at hlower
    simp [hcomponent, hclosing, hlower]
  · simp only [hform] at hlower
    simp [hcomponent, hclosing, hlower]

/-- The nodes of a lowered tree, in order, stand for the statements of the tree that do not
lie below an element replaced by a mustache; all others are accounted for. Markup stands for
itself, edited in its attributes and modifiers as `Element.Edited` says, a block for itself
with other bodies, and all that is not an element or a block for itself unchanged. -/
theorem retained_lower (source : Source) (p : Program) :
    (∀ scope e, inlined source scope e = true ↔
      ∃ m, (lowerElement e (classify source scope e)).1 = .replace (.mustache m)) ∧
    p.statements = withHidden source (p.survivors source .empty) ∧
    List.Forall₂ (StandsFor source) (p.survivors source .empty)
      ((lower source p).nodes .empty) := by
  refine ⟨fun scope e => inlined_iff_replace, ?_, ?_⟩
  · exact (withHidden_survivors_program fun s _ scope => withHidden_survivors s scope).symm
  · rw [lower_eq_lowered]
    exact forall₂_program fun s _ scope => forall₂_survivors s scope

end CurlyTemplate
