import CurlyTemplate.Component.Lowering

/-!
# Induction on trees

A statement holds statements in three places: among the children of an element, in the
body of a block, and in the body behind `{{else}}`. `Statement.induction` proves a
property of all statements from these places, so that no later proof has to take apart
the lists and the optional bodies in between. The bounds on heights below are what an
argument by depth needs of the same three places.
-/

namespace CurlyTemplate

/-- A property of all statements follows for a statement from the statements right
inside. -/
@[elab_as_elim]
theorem Statement.induction {motive : Statement → Prop}
    (element : ∀ e : Element, (∀ s ∈ e.children, motive s) → motive (.element e))
    (mustache : ∀ m, motive (.mustache m))
    (block : ∀ b : Block, (∀ s ∈ b.program.body, motive s) →
      (∀ p, b.inverse = some p → ∀ s ∈ p.body, motive s) → motive (.block b))
    (text : ∀ t, motive (.text t)) (comment : ∀ c, motive (.comment c))
    (mustacheComment : ∀ c, motive (.mustacheComment c)) (s : Statement) : motive s := by
  refine @Statement.rec motive (fun e => ∀ s ∈ e.children, motive s)
    (fun b => (∀ s ∈ b.program.body, motive s) ∧
      ∀ p, b.inverse = some p → ∀ s ∈ p.body, motive s)
    (fun p => ∀ s ∈ p.body, motive s) (fun statements => ∀ s ∈ statements, motive s)
    (fun inverse => ∀ p, inverse = some p → ∀ s ∈ p.body, motive s)
    element mustache (fun b ih => block b ih.1 ih.2) text comment mustacheComment
    ?_ ?_ ?_ ?_ ?_ ?_ ?_ s
  · intro _ _ _ _ _ _ _ _ ih
    exact ih
  · intro _ _ _ _ _ program inverse
    exact ⟨program, inverse⟩
  · intro _ _ _ ih
    exact ih
  · intro s hs
    cases hs
  · intro x rest hx hrest s hs
    rcases List.mem_cons.mp hs with rfl | hs
    · exact hx
    · exact hrest s hs
  · intro p hp
    cases hp
  · intro p ih q hq
    cases hq
    exact ih

@[simp] theorem Statement.height_element (e : Element) :
    (Statement.element e).height = heightOfStatements e.children + 1 := by
  cases e
  rfl

@[simp] theorem Program.height_eq (p : Program) : p.height = heightOfStatements p.body := by
  cases p
  rfl

@[simp] theorem Statement.height_block (b : Block) :
    (Statement.block b).height = max b.program.height (heightOfInverse b.inverse) + 1 := by
  cases b
  rfl

theorem Statement.one_le_height (s : Statement) : 1 ≤ s.height := by
  cases s with
  | element e => simp
  | block b => simp
  | mustache | text | comment | mustacheComment => simp [Statement.height]

theorem height_le_heightOfStatements {s : Statement} {statements : List Statement}
    (h : s ∈ statements) : s.height ≤ heightOfStatements statements := by
  induction statements with
  | nil => cases h
  | cons x rest ih =>
      simp only [heightOfStatements]
      rcases List.mem_cons.mp h with rfl | h
      · exact Nat.le_max_left _ _
      · exact Nat.le_trans (ih h) (Nat.le_max_right _ _)

theorem height_lt_of_mem_children {e : Element} {s : Statement} (h : s ∈ e.children) :
    s.height < (Statement.element e).height := by
  rw [Statement.height_element]
  exact Nat.lt_succ_of_le (height_le_heightOfStatements h)

theorem height_lt_of_mem_program {b : Block} {s : Statement} (h : s ∈ b.program.body) :
    s.height < (Statement.block b).height := by
  have hbody := height_le_heightOfStatements h
  rw [Statement.height_block, Program.height_eq]
  omega

theorem height_lt_of_mem_inverse {b : Block} {p : Program} (hp : b.inverse = some p)
    {s : Statement} (h : s ∈ p.body) : s.height < (Statement.block b).height := by
  have hbody := height_le_heightOfStatements h
  rw [Statement.height_block, hp, heightOfInverse, Program.height_eq p]
  omega

end CurlyTemplate
