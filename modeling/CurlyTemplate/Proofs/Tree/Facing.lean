import CurlyTemplate.Proofs.Tree.Nodes

/-!
# The same place in two trees

`Facing p q scope x y` says that `x` in the tree `p` and `y` in the tree `q` stand at
the same place, the body of a block counting as the place of the children where `q` has
a block for an element of `p`. Nothing is said about what `x` and `y` have in common.
`scope` are the names in scope at `y`: the block params of the programs of `q` around it.
-/

namespace CurlyTemplate

open Component (Scope)

/-- Statements of two trees at the same place, with the names in scope in the second. -/
inductive Facing (p q : Program) : Scope → Statement → Statement → Prop
  | body {i : Nat} {x y : Statement} (hx : p.body[i]? = some x) (hy : q.body[i]? = some y) :
      Facing p q (Scope.empty.push q.blockParams) x y
  | child {scope : Scope} {d e : Element} {i : Nat} {x y : Statement}
      (h : Facing p q scope (.element d) (.element e))
      (hx : d.children[i]? = some x) (hy : e.children[i]? = some y) : Facing p q scope x y
  /-- The second tree has a block in the place of an element. -/
  | taken {scope : Scope} {d : Element} {b : Block} {i : Nat} {x y : Statement}
      (h : Facing p q scope (.element d) (.block b))
      (hx : d.children[i]? = some x) (hy : b.program.body[i]? = some y) :
      Facing p q (scope.push b.program.blockParams) x y
  | program {scope : Scope} {b c : Block} {i : Nat} {x y : Statement}
      (h : Facing p q scope (.block b) (.block c))
      (hx : b.program.body[i]? = some x) (hy : c.program.body[i]? = some y) :
      Facing p q (scope.push c.program.blockParams) x y
  | inverse {scope : Scope} {b c : Block} {r s : Program} {i : Nat} {x y : Statement}
      (h : Facing p q scope (.block b) (.block c))
      (hr : b.inverse = some r) (hs : c.inverse = some s)
      (hx : r.body[i]? = some x) (hy : s.body[i]? = some y) :
      Facing p q (scope.push s.blockParams) x y

namespace Facing

variable {p q : Program} {scope : Scope} {x y : Statement}

theorem mem_nodes (h : Facing p q scope x y) : (scope, y) ∈ q.nodes .empty := by
  induction h with
  | body _ hy => exact Program.mem_nodes_of_body (List.mem_of_getElem? hy)
  | child _ _ hy ih => exact Program.mem_nodes_of_child ih (List.mem_of_getElem? hy)
  | taken _ _ hy ih | program _ _ hy ih =>
      exact Program.mem_nodes_of_program ih (List.mem_of_getElem? hy)
  | inverse _ _ hs _ hy ih => exact Program.mem_nodes_of_inverse ih hs (List.mem_of_getElem? hy)

theorem exists_mem_nodes (h : Facing p q scope x y) : ∃ names, (names, x) ∈ p.nodes .empty := by
  induction h with
  | body hx _ => exact ⟨_, Program.mem_nodes_of_body (List.mem_of_getElem? hx)⟩
  | child _ hx _ ih | taken _ hx _ ih =>
      obtain ⟨names, ih⟩ := ih
      exact ⟨names, Program.mem_nodes_of_child ih (List.mem_of_getElem? hx)⟩
  | program _ hx _ ih =>
      obtain ⟨names, ih⟩ := ih
      exact ⟨_, Program.mem_nodes_of_program ih (List.mem_of_getElem? hx)⟩
  | inverse _ hr _ hx _ ih =>
      obtain ⟨names, ih⟩ := ih
      exact ⟨_, Program.mem_nodes_of_inverse ih hr (List.mem_of_getElem? hx)⟩

end Facing

end CurlyTemplate
