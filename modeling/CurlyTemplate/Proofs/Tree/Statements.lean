import CurlyTemplate.Proofs.Tree.Nodes
import Mathlib.Data.List.Basic

/-!
# A statement and what is inside

`parts` are the statements right inside a statement, whatever its kind, and `statements`
are all of them at every depth, in the order of the text, without the names in scope that
`nodes` lists beside them. The one equation `statements_eq` says how the two belong
together, so that an argument about a whole tree need not tell elements from blocks.
-/

namespace CurlyTemplate

open Component (Scope)

/-- The statements right inside a statement. -/
def Statement.parts : Statement → List Statement
  | .element e => e.children
  | .block b => b.program.body ++ b.inverse.elim [] Program.body
  | _ => []

@[simp] theorem Statement.parts_element (e : Element) :
    (Statement.element e).parts = e.children := rfl

@[simp] theorem Statement.parts_block (b : Block) :
    (Statement.block b).parts = b.program.body ++ b.inverse.elim [] Program.body := rfl

/-- A statement and all statements inside, in the order of the text. -/
def Statement.statements (x : Statement) : List Statement := (x.nodes .empty).map Prod.snd

/-- All statements of a program, in the order of the text. -/
def Program.statements (p : Program) : List Statement := (p.nodes .empty).map Prod.snd

def Statement.element? : Statement → Option Element
  | .element e => some e
  | _ => none

/-- The elements of a statement, in the order of the text. -/
def Statement.elements (x : Statement) : List Element := x.statements.filterMap Statement.element?

/-- The elements of a program, in the order of the text. -/
def Program.elements (p : Program) : List Element := p.statements.filterMap Statement.element?

theorem map_snd_nodes_program (p : Program) (scope : Scope) :
    (p.nodes scope).map Prod.snd =
      p.body.flatMap fun s => (s.nodes (scope.push p.blockParams)).map Prod.snd := by
  rw [Program.nodes_eq, List.map_flatMap]

theorem Statement.map_snd_nodes_element (e : Element) (scope : Scope) :
    ((Statement.element e).nodes scope).map Prod.snd =
      .element e :: e.children.flatMap fun s => (s.nodes scope).map Prod.snd := by
  rw [nodes_element, List.map_cons, List.map_flatMap]

theorem Statement.map_snd_nodes_block (b : Block) (scope : Scope) :
    ((Statement.block b).nodes scope).map Prod.snd =
      .block b :: ((b.program.nodes scope).map Prod.snd ++
        b.inverse.elim [] fun p => (p.nodes scope).map Prod.snd) := by
  rw [nodes_block, List.map_cons, List.map_append]
  cases b.inverse <;> rfl

/-- The statements that `nodes` lists do not depend on the names in scope around. -/
theorem Statement.map_snd_nodes (x : Statement) (scope : Scope) :
    (x.nodes scope).map Prod.snd = x.statements := by
  have hsame : ∀ scope scope' : Scope,
      (x.nodes scope).map Prod.snd = (x.nodes scope').map Prod.snd := by
    induction x using Statement.induction with
    | element e ih =>
        intro scope scope'
        rw [map_snd_nodes_element, map_snd_nodes_element]
        exact congrArg _ (List.flatMap_congr fun s hs => ih s hs _ _)
    | block b ihprogram ihinverse =>
        intro scope scope'
        rw [map_snd_nodes_block, map_snd_nodes_block, map_snd_nodes_program,
          map_snd_nodes_program, List.flatMap_congr fun s hs => ihprogram s hs _ _]
        cases hp : b.inverse with
        | none => rfl
        | some p =>
            simp only [Option.elim_some, map_snd_nodes_program]
            rw [List.flatMap_congr fun s hs => ihinverse p hp s hs _ _]
    | mustache | text | comment | mustacheComment =>
        intro scope scope'
        rfl
  exact hsame scope .empty

theorem Program.statements_eq (p : Program) :
    p.statements = p.body.flatMap Statement.statements := by
  rw [Program.statements, map_snd_nodes_program]
  exact List.flatMap_congr fun s _ => s.map_snd_nodes _

theorem Program.map_snd_nodes (p : Program) (scope : Scope) :
    (p.nodes scope).map Prod.snd = p.statements := by
  rw [map_snd_nodes_program, statements_eq]
  exact List.flatMap_congr fun s _ => s.map_snd_nodes _

theorem Statement.statements_eq (x : Statement) :
    x.statements = x :: x.parts.flatMap Statement.statements := by
  cases x with
  | element e =>
      rw [Statement.statements, map_snd_nodes_element]
      exact congrArg _ (List.flatMap_congr fun s _ => s.map_snd_nodes _)
  | block b =>
      rw [Statement.statements, map_snd_nodes_block, Program.map_snd_nodes,
        Program.statements_eq, Statement.parts, List.flatMap_append]
      cases b.inverse with
      | none => rfl
      | some p =>
          simp only [Option.elim_some, Program.map_snd_nodes, Program.statements_eq]
  | mustache | text | comment | mustacheComment => rfl

/-- A property of all statements follows for a statement from its parts. -/
@[elab_as_elim]
theorem Statement.partsInduction {motive : Statement → Prop}
    (h : ∀ x : Statement, (∀ z ∈ x.parts, motive z) → motive x) (x : Statement) : motive x := by
  induction x using Statement.induction with
  | element e ih => exact h _ ih
  | block b ihprogram ihinverse =>
      apply h
      intro z hz
      rcases List.mem_append.mp hz with hz | hz
      · exact ihprogram z hz
      · cases hp : b.inverse with
        | none =>
            rw [hp] at hz
            cases hz
        | some p =>
            rw [hp] at hz
            exact ihinverse p hp z hz
  | mustache | text | comment | mustacheComment =>
      apply h
      intro z hz
      cases hz

variable {x z : Statement}

theorem Statement.sublist_of_mem_parts (h : z ∈ x.parts) :
    z.statements.Sublist (x.parts.flatMap Statement.statements) := by
  rw [List.flatMap_def]
  exact List.sublist_flatten_of_mem (List.mem_map_of_mem h)

theorem Statement.length_lt_of_mem_parts (h : z ∈ x.parts) :
    z.statements.length < x.statements.length := by
  rw [x.statements_eq, List.length_cons]
  exact Nat.lt_succ_of_le (sublist_of_mem_parts h).length_le

theorem Statement.elements_eq (x : Statement) :
    x.elements = x.element?.toList ++ x.parts.flatMap Statement.elements := by
  rw [Statement.elements, x.statements_eq, List.filterMap_cons, List.filterMap_flatMap]
  cases x.element? <;> rfl

theorem Program.elements_eq (p : Program) : p.elements = p.body.flatMap Statement.elements := by
  rw [Program.elements, Program.statements_eq, List.filterMap_flatMap]
  rfl

theorem Statement.elements_element (e : Element) :
    (Statement.element e).elements = e :: e.children.flatMap Statement.elements :=
  elements_eq _

theorem Statement.elements_block (b : Block) :
    (Statement.block b).elements = b.program.elements ++ b.inverse.elim [] Program.elements := by
  rw [elements_eq, parts_block, List.flatMap_append, b.program.elements_eq]
  cases b.inverse with
  | none => rfl
  | some p =>
      rw [Option.elim_some, Option.elim_some, p.elements_eq]
      rfl

theorem Statement.elements_length_le_of_mem_parts (h : z ∈ x.parts) :
    z.elements.length ≤ x.elements.length := by
  have hsub : z.elements.Sublist (x.parts.flatMap Statement.elements) := by
    rw [List.flatMap_def]
    exact List.sublist_flatten_of_mem (List.mem_map_of_mem h)
  rw [x.elements_eq, List.length_append]
  exact Nat.le_add_left_of_le hsub.length_le

section Flagged

mutual

/-- A statement and all statements inside, each marked by whether it lies below one that is
picked out. -/
def Statement.flagged (picked : Statement → Bool) (below : Bool) :
    Statement → List (Bool × Statement)
  | .element e@⟨_, _, _, children, _, _, _, _⟩ =>
      (below, .element e) :: flaggedOfStatements picked (below || picked (.element e)) children
  | .block b@⟨_, program, inverse, _, _⟩ =>
      (below, .block b) :: (program.flagged picked (below || picked (.block b)) ++
        flaggedOfInverse picked (below || picked (.block b)) inverse)
  | other => [(below, other)]

def flaggedOfStatements (picked : Statement → Bool) (below : Bool) :
    List Statement → List (Bool × Statement)
  | [] => []
  | s :: rest => s.flagged picked below ++ flaggedOfStatements picked below rest

def Program.flagged (picked : Statement → Bool) (below : Bool) :
    Program → List (Bool × Statement)
  | ⟨body, _, _⟩ => flaggedOfStatements picked below body

def flaggedOfInverse (picked : Statement → Bool) (below : Bool) :
    Option Program → List (Bool × Statement)
  | none => []
  | some p => p.flagged picked below

end

variable {picked : Statement → Bool} {below : Bool}

theorem flaggedOfStatements_eq (statements : List Statement) :
    flaggedOfStatements picked below statements =
      statements.flatMap (Statement.flagged picked below) := by
  induction statements with
  | nil => rfl
  | cons s rest ih => rw [flaggedOfStatements, List.flatMap_cons, ih]

theorem Program.flagged_eq (p : Program) :
    p.flagged picked below = p.body.flatMap (Statement.flagged picked below) := by
  cases p
  exact flaggedOfStatements_eq _

theorem flaggedOfInverse_eq (inverse : Option Program) :
    flaggedOfInverse picked below inverse =
      (inverse.elim [] Program.body).flatMap (Statement.flagged picked below) := by
  cases inverse with
  | none => rfl
  | some p => exact p.flagged_eq

theorem Statement.flagged_eq (x : Statement) :
    x.flagged picked below =
      (below, x) :: x.parts.flatMap (Statement.flagged picked (below || picked x)) := by
  cases x with
  | element e =>
      cases e
      rw [Statement.flagged, flaggedOfStatements_eq]
      rfl
  | block b =>
      cases b
      rw [Statement.flagged, Program.flagged_eq, flaggedOfInverse_eq, ← List.flatMap_append]
      rfl
  | mustache | text | comment | mustacheComment => rfl

/-- Without the marks, these are all statements. -/
theorem Statement.map_snd_flagged (x : Statement) (picked : Statement → Bool) (below : Bool) :
    (x.flagged picked below).map Prod.snd = x.statements := by
  induction x using Statement.partsInduction generalizing below with
  | h x ih =>
      rw [flagged_eq, List.map_cons, List.map_flatMap, x.statements_eq]
      exact congrArg _ (List.flatMap_congr fun z hz => ih z hz _)

theorem Program.map_snd_flagged (p : Program) (picked : Statement → Bool) (below : Bool) :
    (p.flagged picked below).map Prod.snd = p.statements := by
  rw [flagged_eq, List.map_flatMap, statements_eq]
  exact List.flatMap_congr fun x _ => x.map_snd_flagged picked below

theorem Statement.fst_of_mem_flagged (x : Statement) {y : Bool × Statement}
    (h : y ∈ x.flagged picked true) : y.1 = true := by
  induction x using Statement.partsInduction with
  | h x ih =>
      rw [flagged_eq, Bool.true_or] at h
      rcases List.mem_cons.mp h with rfl | h
      · rfl
      · obtain ⟨z, hz, hy⟩ := List.mem_flatMap.mp h
        exact ih z hz hy

end Flagged

end CurlyTemplate
