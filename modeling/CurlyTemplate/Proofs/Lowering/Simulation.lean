import CurlyTemplate.Proofs.Lowering.Recursion
import CurlyTemplate.Proofs.Traversal.Visit
import CurlyTemplate.Proofs.Tree.Induction

/-!
# The visitor and the recursion

The visitor keeps the names in scope in one state that all nodes share, and walks what
it has just put in the place of an element. Its run agrees with the recursion because
every visit leaves the state as it found it, so that what is beside a node sees the
same names as the node did. `traverse_lowering` says this of whole trees, for every
state at the start and for every depth from `loweringDepth` on: an element costs two
steps at most, one for itself and one for the call in its place.
-/

namespace CurlyTemplate

namespace Component

open Visitor (Visit walk_eq_map traverse_mono visitProgram visitInverse visitInside visitStatement
  visitStatement_of_keep visitStatement_of_replace)

variable {source : Source} {scope : Scope}

section Inside

variable {visit : Visit Scope}

/-- The visits of some statements give what the recursion gives and leave the names in
scope as they are. -/
def Agrees (source : Source) (visit : Visit Scope) (scope : Scope)
    (statements : List Statement) : Prop :=
  ∀ s ∈ statements, visit s scope = some (some (s.lowered source scope), scope)

theorem visitProgram_lowering {p : Program}
    (h : Agrees source visit (scope.push p.blockParams) p.body) :
    (lowering source).visitProgram visit p scope = some (p.lowered source scope, scope) := by
  have hbody := walk_eq_map h
  simp [visitProgram, lowering, hbody, Program.lowered_eq]

theorem visitInverse_lowering {inverse : Option Program}
    (h : ∀ p, inverse = some p → Agrees source visit (scope.push p.blockParams) p.body) :
    (lowering source).visitInverse visit inverse scope =
      some (inverse.map (Program.lowered source scope), scope) := by
  cases inverse with
  | none => rfl
  | some p => simp [visitInverse, visitProgram_lowering (h p rfl)]

theorem visitInside_lowering_block {b : Block}
    (hprogram : Agrees source visit (scope.push b.program.blockParams) b.program.body)
    (hinverse : ∀ p, b.inverse = some p →
      Agrees source visit (scope.push p.blockParams) p.body) :
    (lowering source).visitInside visit (.block b) scope =
      some ((Statement.block b).lowered source scope, scope) := by
  simp [visitInside, visitProgram_lowering hprogram, visitInverse_lowering hinverse,
    Statement.lowered_block]

end Inside

theorem hook_lowering_element (source : Source) (scope : Scope) (e : Element) :
    (lowering source).hook (.element e) scope =
      (((lowerElement e (classify source scope e)).1,
        .element (lowerElement e (classify source scope e)).2), scope) := rfl

/-- The form of an element tells what the visitor asks for. -/
theorem lowerElement_classify (source : Source) (scope : Scope) (e : Element) :
    match form source scope e with
    | .markup kept => lowerElement e (classify source scope e) = (.keep, kept)
    | .inline call => (lowerElement e (classify source scope e)).1 =
        .replace (.mustache (Build.mustache call e.loc))
    | .around call => (lowerElement e (classify source scope e)).1 =
        .replace (.block (Build.block call (Build.program e.children e.blockParams) none e.loc)) := by
  simp only [form]
  cases classify source scope e with
  | markup hasSplat => cases hasSplat <;> rfl
  | static name selfClosing hasSplat => cases selfClosing <;> rfl
  | dynamic callee selfClosing hasSplat => cases selfClosing <;> rfl

theorem visitStatement_lowering_block {depth : Nat} {b : Block}
    (hprogram : Agrees source ((lowering source).visitStatement depth)
      (scope.push b.program.blockParams) b.program.body)
    (hinverse : ∀ p, b.inverse = some p →
      Agrees source ((lowering source).visitStatement depth) (scope.push p.blockParams) p.body) :
    (lowering source).visitStatement (depth + 1) (.block b) scope =
      some (some ((Statement.block b).lowered source scope), scope) := by
  have hhook : (lowering source).hook (.block b) scope = ((.keep, .block b), scope) := rfl
  rw [visitStatement_of_keep hhook, visitInside_lowering_block hprogram hinverse]
  rfl

/-- An element takes two steps: its own, and that of the call in its place. The call sees
the children of the element under its block params, for it has become a block. -/
theorem visitStatement_lowering_element {depth : Nat} {e : Element}
    (hmarkup : Agrees source ((lowering source).visitStatement (depth + 1)) scope e.children)
    (haround : Agrees source ((lowering source).visitStatement depth)
      (scope.push e.blockParams) e.children) :
    (lowering source).visitStatement (depth + 2) (.element e) scope =
      some (some ((Statement.element e).lowered source scope), scope) := by
  have hlower := lowerElement_classify source scope e
  have hhook := hook_lowering_element source scope e
  cases hform : form source scope e with
  | markup kept =>
      simp only [hform] at hlower
      rw [hlower] at hhook
      have hchildren := walk_eq_map hmarkup
      rw [visitStatement_of_keep hhook, Statement.lowered_markup hform]
      simp [visitInside, children_of_form_markup hform, hchildren]
  | inline call =>
      simp only [hform] at hlower
      rw [hlower] at hhook
      rw [visitStatement_of_replace hhook, Statement.lowered_inline hform]
      rfl
  | around call =>
      simp only [hform] at hlower
      rw [hlower] at hhook
      let b := Build.block call (Build.program e.children e.blockParams) none e.loc
      have hblock : (lowering source).visitStatement (depth + 1) (.block b) scope =
          some (some ((Statement.block b).lowered source scope), scope) := by
        apply visitStatement_lowering_block haround
        intro p hp
        cases hp
      rw [visitStatement_of_replace hhook, hblock, Statement.lowered_around hform,
        Statement.lowered_block, Program.lowered_eq]
      rfl

theorem exists_eq_add_two {s : Statement} {depth : Nat} (h : 2 * s.height ≤ depth) :
    ∃ rest, depth = rest + 2 := by
  have hheight := s.one_le_height
  exact Nat.exists_eq_add_of_le' (by omega)

theorem visitStatement_lowering (s : Statement) {scope : Scope} {depth : Nat}
    (h : 2 * s.height ≤ depth) :
    (lowering source).visitStatement depth s scope =
      some (some (s.lowered source scope), scope) := by
  -- Each case hands the bound on the depth on to what is right inside the statement.
  induction s using Statement.induction generalizing scope depth with
  | element e ih =>
      obtain ⟨depth, rfl⟩ := exists_eq_add_two h
      apply visitStatement_lowering_element
      · intro s hs
        have hlt := height_lt_of_mem_children hs
        exact ih s hs (by omega)
      · intro s hs
        have hlt := height_lt_of_mem_children hs
        exact ih s hs (by omega)
  | block b ihprogram ihinverse =>
      obtain ⟨depth, rfl⟩ := exists_eq_add_two h
      apply visitStatement_lowering_block
      · intro s hs
        have hlt := height_lt_of_mem_program hs
        exact ihprogram s hs (by omega)
      · intro p hp s hs
        have hlt := height_lt_of_mem_inverse hp hs
        exact ihinverse p hp s hs (by omega)
  | mustache | text | comment | mustacheComment =>
      obtain ⟨depth, rfl⟩ := exists_eq_add_two h
      rfl

theorem traverse_lowering {p : Program} {depth : Nat} (h : loweringDepth p ≤ depth) :
    (lowering source).traverse depth p scope = some (p.lowered source scope, scope) := by
  apply visitProgram_lowering
  intro s hs
  have hheight := height_le_heightOfStatements hs
  rw [loweringDepth, Program.height_eq] at h
  exact visitStatement_lowering s (by omega)

theorem lower_eq_lowered (p : Program) : lower source p = p.lowered source .empty := by
  rw [lower, traverse_lowering (Nat.le_refl _)]

theorem traverse_eq_none_or (p : Program) (depth : Nat) :
    (lowering source).traverse depth p scope = none ∨
      (lowering source).traverse depth p scope = some (p.lowered source scope, scope) := by
  cases h : (lowering source).traverse depth p scope with
  | none => exact .inl rfl
  | some r =>
      have hlater := traverse_mono (Nat.le_max_left depth (loweringDepth p)) h
      rw [traverse_lowering (Nat.le_max_right depth (loweringDepth p))] at hlater
      exact .inr hlater.symm

/-- The visitor with its one state does what the recursion does. From every names in
scope at the start, and whatever the depth, its run gives the recursion or does not end;
it ends from `loweringDepth` on, with the names that it started from. Every list of
statements keeps its length and its order. -/
theorem traverse_eq_lowered (source : Source) (scope : Scope) (p : Program) :
    (∀ depth, (lowering source).traverse depth p scope = none ∨
      (lowering source).traverse depth p scope = some (p.lowered source scope, scope)) ∧
    (∀ extra, (lowering source).traverse (loweringDepth p + extra) p scope =
      some (p.lowered source scope, scope)) ∧
    lower source p = p.lowered source .empty ∧
    ∀ (names : Scope) (statements : List Statement),
      (loweredStatements source names statements).length = statements.length ∧
      ∀ i : Nat, (loweredStatements source names statements)[i]? =
        statements[i]?.map (Statement.lowered source names) := by
  refine ⟨traverse_eq_none_or p, fun extra => ?_, lower_eq_lowered p, fun names statements => ?_⟩
  · exact traverse_lowering (Nat.le_add_right _ extra)
  · rw [loweredStatements_eq_map]
    exact ⟨List.length_map _, fun i => List.getElem?_map⟩

end Component

end CurlyTemplate
