import CurlyTemplate.Proofs.Lowering.Simulation
import CurlyTemplate.Proofs.Tree.Facing

/-!
# Places in a lowered tree

What stands at a place of the lowered tree is the lowered statement of the same place,
under the names in scope there (`Facing.eq_lowered`), and every statement of the lowered
tree stands at a place of the tree that was lowered (`exists_facing`). So a statement
about all pairs at the same place is a statement about all of the lowered tree.
-/

namespace CurlyTemplate

open Component (Scope Form form lower lower_eq_lowered form_eq_markup_iff)

variable {source : Source} {p q : Program} {scope : Scope} {x y : Statement}

theorem Statement.element_of_lowered {d e : Element}
    (h : .element e = (Statement.element d).lowered source scope) :
    e.children = d.children.map (Statement.lowered source scope) := by
  cases hform : form source scope d with
  | markup kept =>
      rw [lowered_markup hform] at h
      cases h
      rfl
  | inline call =>
      rw [lowered_inline hform] at h
      cases h
  | around call =>
      rw [lowered_around hform] at h
      cases h

theorem Statement.block_of_lowered {d : Element} {b : Block}
    (h : .block b = (Statement.element d).lowered source scope) :
    b.program = Build.program
      (d.children.map (Statement.lowered source (scope.push d.blockParams))) d.blockParams := by
  cases hform : form source scope d with
  | markup kept =>
      rw [lowered_markup hform] at h
      cases h
  | inline call =>
      rw [lowered_inline hform] at h
      cases h
  | around call =>
      rw [lowered_around hform] at h
      cases h
      rfl

theorem eq_lowered_of_getElem? {statements : List Statement} {i : Nat}
    (hx : statements[i]? = some x)
    (hy : (statements.map (Statement.lowered source scope))[i]? = some y) :
    y = x.lowered source scope := by
  rw [List.getElem?_map, hx] at hy
  exact (Option.some.inj hy).symm

theorem Facing.eq_lowered (h : Facing p (lower source p) scope x y) :
    y = x.lowered source scope := by
  rw [lower_eq_lowered] at h
  induction h with
  | body hx hy =>
      rw [Program.lowered_eq] at hy ⊢
      exact eq_lowered_of_getElem? hx hy
  | child _ hx hy ih =>
      rw [Statement.element_of_lowered ih] at hy
      exact eq_lowered_of_getElem? hx hy
  | taken _ hx hy ih =>
      rw [Statement.block_of_lowered ih] at hy ⊢
      exact eq_lowered_of_getElem? hx hy
  | program _ hx hy ih =>
      rw [Statement.lowered_block, Program.lowered_eq] at ih
      cases ih
      exact eq_lowered_of_getElem? hx hy
  | inverse _ hr hs hx hy ih =>
      rw [Statement.lowered_block, hr] at ih
      cases ih
      cases hs
      rw [Program.lowered_eq] at hy ⊢
      exact eq_lowered_of_getElem? hx hy

theorem exists_getElem?_map {statements : List Statement} (hx : x ∈ statements)
    (f : Statement → Statement) :
    ∃ i : Nat, statements[i]? = some x ∧ (statements.map f)[i]? = some (f x) := by
  obtain ⟨i, hi⟩ := List.mem_iff_getElem?.mp hx
  refine ⟨i, hi, ?_⟩
  rw [List.getElem?_map, hi]
  rfl

namespace Facing

theorem body_lower (hx : x ∈ p.body) :
    Facing p (lower source p) (Scope.empty.push p.blockParams) x
      (x.lowered source (Scope.empty.push p.blockParams)) := by
  obtain ⟨i, hxi, hyi⟩ := exists_getElem?_map hx _
  rw [lower_eq_lowered, Program.lowered_eq]
  exact .body hxi hyi

theorem child_lowered {e kept : Element} (hform : form source scope e = .markup kept)
    (h : Facing p q scope (.element e) ((Statement.element e).lowered source scope))
    (hx : x ∈ e.children) : Facing p q scope x (x.lowered source scope) := by
  obtain ⟨i, hxi, hyi⟩ := exists_getElem?_map hx _
  rw [Statement.lowered_markup hform] at h
  exact .child h hxi hyi

theorem taken_lowered {e : Element} {call : Call} (hform : form source scope e = .around call)
    (h : Facing p q scope (.element e) ((Statement.element e).lowered source scope))
    (hx : x ∈ e.children) :
    Facing p q (scope.push e.blockParams) x (x.lowered source (scope.push e.blockParams)) := by
  obtain ⟨i, hxi, hyi⟩ := exists_getElem?_map hx _
  rw [Statement.lowered_around hform] at h
  exact .taken h hxi hyi

theorem program_lowered {b : Block}
    (h : Facing p q scope (.block b) ((Statement.block b).lowered source scope))
    (hx : x ∈ b.program.body) :
    Facing p q (scope.push b.program.blockParams) x
      (x.lowered source (scope.push b.program.blockParams)) := by
  obtain ⟨i, hxi, hyi⟩ := exists_getElem?_map hx
    (Statement.lowered source (scope.push b.program.blockParams))
  rw [Statement.lowered_block, Program.lowered_eq] at h
  have hplace := Facing.program h hxi hyi
  exact hplace

theorem inverse_lowered {b : Block} {r : Program}
    (h : Facing p q scope (.block b) ((Statement.block b).lowered source scope))
    (hr : b.inverse = some r) (hx : x ∈ r.body) :
    Facing p q (scope.push r.blockParams) x (x.lowered source (scope.push r.blockParams)) := by
  obtain ⟨i, hxi, hyi⟩ := exists_getElem?_map hx
    (Statement.lowered source (scope.push r.blockParams))
  have hs : b.inverse.map (Program.lowered source scope) =
      some { r with body := r.body.map (Statement.lowered source (scope.push r.blockParams)) } := by
    rw [hr, Option.map_some, Program.lowered_eq]
  rw [Statement.lowered_block] at h
  have hplace := Facing.inverse h hr hs hxi hyi
  exact hplace

end Facing

theorem exists_facing_of_mem_lowered (x : Statement) {scope names : Scope} {z : Statement}
    (h : Facing p q scope x (x.lowered source scope))
    (hz : (names, z) ∈ (x.lowered source scope).nodes scope) :
    ∃ w, Facing p q names w z := by
  -- The place that `x` and the lowered statement share goes down the tree with `x`.
  induction x using Statement.induction generalizing scope with
  | element e ih =>
      cases hform : form source scope e with
      | markup kept =>
          rw [Statement.lowered_markup hform] at hz
          rcases Statement.mem_nodes_element.mp hz with heq | ⟨t, ht, hz⟩
          · cases heq
            rw [Statement.lowered_markup hform] at h
            exact ⟨_, h⟩
          · obtain ⟨s, hs, rfl⟩ := List.mem_map.mp ht
            exact ih s hs (h.child_lowered hform hs) hz
      | inline call =>
          rw [Statement.lowered_inline hform] at h hz
          cases List.mem_singleton.mp hz
          exact ⟨_, h⟩
      | around call =>
          rw [Statement.lowered_around hform] at hz
          rcases Statement.mem_nodes_block.mp hz with heq | hz | ⟨r, hr, hz⟩
          · cases heq
            rw [Statement.lowered_around hform] at h
            exact ⟨_, h⟩
          · obtain ⟨t, ht, hz⟩ := Program.mem_nodes.mp hz
            obtain ⟨s, hs, rfl⟩ := List.mem_map.mp ht
            exact ih s hs (h.taken_lowered hform hs) hz
          · cases hr
  | block b ihprogram ihinverse =>
      rw [Statement.lowered_block] at hz
      rcases Statement.mem_nodes_block.mp hz with heq | hz | ⟨t, ht, hz⟩
      · cases heq
        rw [Statement.lowered_block] at h
        exact ⟨_, h⟩
      · rw [Program.lowered_eq] at hz
        obtain ⟨t, ht, hz⟩ := Program.mem_nodes.mp hz
        obtain ⟨s, hs, rfl⟩ := List.mem_map.mp ht
        exact ihprogram s hs (h.program_lowered hs) hz
      · obtain ⟨r, hr, rfl⟩ := Option.map_eq_some_iff.mp ht
        rw [Program.lowered_eq] at hz
        obtain ⟨t, ht, hz⟩ := Program.mem_nodes.mp hz
        obtain ⟨s, hs, rfl⟩ := List.mem_map.mp ht
        exact ihinverse r hr s hs (h.inverse_lowered hr hs) hz
  | mustache | text | comment | mustacheComment =>
      cases List.mem_singleton.mp hz
      exact ⟨_, h⟩

theorem exists_facing {names : Scope} {z : Statement}
    (hz : (names, z) ∈ (lower source p).nodes .empty) :
    ∃ w, Facing p (lower source p) names w z := by
  rw [lower_eq_lowered, Program.lowered_eq] at hz
  obtain ⟨t, ht, hz⟩ := Program.mem_nodes.mp hz
  obtain ⟨x, hx, rfl⟩ := List.mem_map.mp ht
  exact exists_facing_of_mem_lowered x (.body_lower hx) hz

/-- Every statement of a tree has its place in the lowered tree, unless it lies below an
element that has become a mustache. -/
theorem facing_or_below (x : Statement) {scope outer inner : Scope} {z : Statement}
    (h : Facing p q scope x (x.lowered source scope)) (hz : (inner, z) ∈ x.nodes outer) :
    (∃ names y, Facing p q names z y) ∨
      ∃ names d m, Facing p q names (.element d) (.mustache m) ∧
        ∃ s ∈ d.children, ∃ inner outer, (inner, z) ∈ s.nodes outer := by
  induction x using Statement.induction generalizing scope outer with
  | element e ih =>
      rcases Statement.mem_nodes_element.mp hz with heq | ⟨s, hs, hz⟩
      · cases heq
        exact .inl ⟨_, _, h⟩
      · cases hform : form source scope e with
        | markup kept => exact ih s hs (h.child_lowered hform hs) hz
        | inline call =>
            rw [Statement.lowered_inline hform] at h
            exact .inr ⟨_, _, _, h, s, hs, _, _, hz⟩
        | around call => exact ih s hs (h.taken_lowered hform hs) hz
  | block b ihprogram ihinverse =>
      rcases Statement.mem_nodes_block.mp hz with heq | hz | ⟨r, hr, hz⟩
      · cases heq
        exact .inl ⟨_, _, h⟩
      · obtain ⟨s, hs, hz⟩ := Program.mem_nodes.mp hz
        exact ihprogram s hs (h.program_lowered hs) hz
      · obtain ⟨s, hs, hz⟩ := Program.mem_nodes.mp hz
        exact ihinverse r hr s hs (h.inverse_lowered hr hs) hz
  | mustache | text | comment | mustacheComment =>
      cases List.mem_singleton.mp hz
      exact .inl ⟨_, _, h⟩

end CurlyTemplate
