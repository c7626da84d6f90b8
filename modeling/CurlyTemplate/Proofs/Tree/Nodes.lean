import CurlyTemplate.Component.Scope
import CurlyTemplate.Proofs.Tree.Induction

/-!
# The statements of a tree

`nodes` lists the statements of a tree at every depth, in the order of its text, each
with the names in scope where it stands: the block params of the programs around it,
the outermost first. The block params of an element are in scope nowhere, as only
programs bring names in.
-/

namespace CurlyTemplate

open Component (Scope)

mutual

/-- A statement and all statements inside, each with the names in scope where it stands. -/
def Statement.nodes (scope : Scope) : Statement → List (Scope × Statement)
  | .element e@⟨_, _, _, children, _, _, _, _⟩ =>
      (scope, .element e) :: nodesOfStatements scope children
  | .block b@⟨_, program, inverse, _, _⟩ =>
      (scope, .block b) :: (program.nodes scope ++ nodesOfInverse scope inverse)
  | other => [(scope, other)]

def nodesOfStatements (scope : Scope) : List Statement → List (Scope × Statement)
  | [] => []
  | s :: rest => s.nodes scope ++ nodesOfStatements scope rest

def Program.nodes (scope : Scope) : Program → List (Scope × Statement)
  | ⟨body, blockParams, _⟩ => nodesOfStatements (scope.push blockParams) body

def nodesOfInverse (scope : Scope) : Option Program → List (Scope × Statement)
  | none => []
  | some p => p.nodes scope

end

variable {scope : Scope} {x : Scope × Statement}

theorem nodesOfStatements_eq_flatMap (statements : List Statement) :
    nodesOfStatements scope statements = statements.flatMap (Statement.nodes scope) := by
  induction statements with
  | nil => rfl
  | cons s rest ih => rw [nodesOfStatements, List.flatMap_cons, ih]

theorem mem_nodesOfStatements {statements : List Statement} :
    x ∈ nodesOfStatements scope statements ↔ ∃ s ∈ statements, x ∈ s.nodes scope := by
  rw [nodesOfStatements_eq_flatMap, List.mem_flatMap]

theorem Program.nodes_eq (p : Program) :
    p.nodes scope = p.body.flatMap (Statement.nodes (scope.push p.blockParams)) := by
  cases p
  exact nodesOfStatements_eq_flatMap _

theorem Statement.nodes_element (e : Element) :
    (Statement.element e).nodes scope =
      (scope, .element e) :: e.children.flatMap (Statement.nodes scope) := by
  cases e
  rw [Statement.nodes, nodesOfStatements_eq_flatMap]

theorem Statement.nodes_block (b : Block) :
    (Statement.block b).nodes scope =
      (scope, .block b) ::
        (b.program.nodes scope ++ b.inverse.elim [] (Program.nodes scope)) := by
  obtain ⟨call, program, inverse, loc, extra⟩ := b
  cases inverse <;> rfl

theorem Program.mem_nodes {p : Program} :
    x ∈ p.nodes scope ↔ ∃ s ∈ p.body, x ∈ s.nodes (scope.push p.blockParams) := by
  rw [nodes_eq, List.mem_flatMap]

theorem Statement.mem_nodes_element {e : Element} :
    x ∈ (Statement.element e).nodes scope ↔
      x = (scope, .element e) ∨ ∃ s ∈ e.children, x ∈ s.nodes scope := by
  rw [nodes_element, List.mem_cons, List.mem_flatMap]

theorem Statement.mem_nodes_block {b : Block} :
    x ∈ (Statement.block b).nodes scope ↔
      x = (scope, .block b) ∨ x ∈ b.program.nodes scope ∨
        ∃ p, b.inverse = some p ∧ x ∈ p.nodes scope := by
  rw [nodes_block, List.mem_cons, List.mem_append]
  cases b.inverse <;> simp

theorem Statement.mem_nodes_self (scope : Scope) (s : Statement) :
    (scope, s) ∈ s.nodes scope := by
  cases s with
  | element e => exact mem_nodes_element.2 (.inl rfl)
  | block b => exact mem_nodes_block.2 (.inl rfl)
  | mustache | text | comment | mustacheComment => exact List.mem_singleton_self _

theorem Program.nodes_trans_of {p : Program} {names : Scope} {t : Statement}
    (h : ∀ s ∈ p.body, ∀ scope, (names, t) ∈ s.nodes scope → x ∈ t.nodes names →
      x ∈ s.nodes scope)
    (ht : (names, t) ∈ p.nodes scope) (hx : x ∈ t.nodes names) : x ∈ p.nodes scope := by
  obtain ⟨s, hs, ht⟩ := mem_nodes.1 ht
  exact mem_nodes.2 ⟨s, hs, h s hs _ ht hx⟩

/-- What is inside a node is inside what the node is inside of. -/
theorem Statement.nodes_trans (s : Statement) {scope names : Scope} {t : Statement}
    (ht : (names, t) ∈ s.nodes scope) (hx : x ∈ t.nodes names) : x ∈ s.nodes scope := by
  induction s using Statement.induction generalizing scope with
  | element e ih =>
      rcases mem_nodes_element.1 ht with heq | ⟨s, hs, ht⟩
      · cases heq
        exact hx
      · exact mem_nodes_element.2 (.inr ⟨s, hs, ih s hs ht⟩)
  | block b ihprogram ihinverse =>
      rcases mem_nodes_block.1 ht with heq | ht | ⟨p, hp, ht⟩
      · cases heq
        exact hx
      · refine mem_nodes_block.2 (.inr (.inl ?_))
        exact Program.nodes_trans_of (fun s hs _ ht _ => ihprogram s hs ht) ht hx
      · refine mem_nodes_block.2 (.inr (.inr ⟨p, hp, ?_⟩))
        exact Program.nodes_trans_of (fun s hs _ ht _ => ihinverse p hp s hs ht) ht hx
  | mustache | text | comment | mustacheComment =>
      cases List.mem_singleton.mp ht
      exact hx

theorem Program.nodes_trans {p : Program} {names : Scope} {t : Statement}
    (ht : (names, t) ∈ p.nodes scope) (hx : x ∈ t.nodes names) : x ∈ p.nodes scope :=
  nodes_trans_of (fun s _ _ ht hx => s.nodes_trans ht hx) ht hx

theorem nodes_subset_of_child {e : Element} {s : Statement} (hs : s ∈ e.children) :
    s.nodes scope ⊆ (Statement.element e).nodes scope := fun _ hx =>
  Statement.mem_nodes_element.2 (.inr ⟨s, hs, hx⟩)

theorem nodes_subset_of_program {b : Block} :
    b.program.nodes scope ⊆ (Statement.block b).nodes scope := fun _ hx =>
  Statement.mem_nodes_block.2 (.inr (.inl hx))

theorem nodes_subset_of_inverse {b : Block} {p : Program} (hp : b.inverse = some p) :
    p.nodes scope ⊆ (Statement.block b).nodes scope := fun _ hx =>
  Statement.mem_nodes_block.2 (.inr (.inr ⟨p, hp, hx⟩))

theorem nodes_subset_of_body {p : Program} {s : Statement} (hs : s ∈ p.body) :
    s.nodes (scope.push p.blockParams) ⊆ p.nodes scope := fun _ hx =>
  Program.mem_nodes.2 ⟨s, hs, hx⟩

namespace Program

variable {p : Program} {names : Scope} {s : Statement}

theorem mem_nodes_of_body (hs : s ∈ p.body) : (scope.push p.blockParams, s) ∈ p.nodes scope :=
  mem_nodes.2 ⟨s, hs, s.mem_nodes_self _⟩

theorem mem_nodes_of_child {e : Element} (h : (names, .element e) ∈ p.nodes scope)
    (hs : s ∈ e.children) : (names, s) ∈ p.nodes scope :=
  nodes_trans h (Statement.mem_nodes_element.2 (.inr ⟨s, hs, s.mem_nodes_self _⟩))

theorem mem_nodes_of_program {b : Block} (h : (names, .block b) ∈ p.nodes scope)
    (hs : s ∈ b.program.body) : (names.push b.program.blockParams, s) ∈ p.nodes scope :=
  nodes_trans h (Statement.mem_nodes_block.2 (.inr (.inl (mem_nodes_of_body hs))))

theorem mem_nodes_of_inverse {b : Block} {r : Program} (h : (names, .block b) ∈ p.nodes scope)
    (hr : b.inverse = some r) (hs : s ∈ r.body) :
    (names.push r.blockParams, s) ∈ p.nodes scope :=
  nodes_trans h (Statement.mem_nodes_block.2 (.inr (.inr ⟨r, hr, mem_nodes_of_body hs⟩)))

end Program

end CurlyTemplate
