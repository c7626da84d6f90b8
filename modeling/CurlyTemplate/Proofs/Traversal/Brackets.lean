import CurlyTemplate.Proofs.Traversal.Recording
import CurlyTemplate.Syntax.Build
import Mathlib.Data.List.Forall2

/-!
# Entering and leaving

A traversal enters each program before its body and leaves it behind it. The calls of the
two hooks are the brackets of the tree that the traversal leaves behind, whatever the
visitor does to the tree on the way (`traverse_brackets`): what is removed or replaced has
not been entered yet, and what has been left is not touched any more. Only the program
that is entered is shown with the body it has before the visit.
-/

namespace CurlyTemplate

open Visitor (Event)

mutual

/-- The calls that enter and leave the programs inside a statement that stays as it is. -/
def Statement.brackets : Statement → List Event
  | .element ⟨_, _, _, children, _, _, _, _⟩ => bracketsOfStatements children
  | .block ⟨_, program, inverse, _, _⟩ => program.brackets ++ bracketsOfInverse inverse
  | _ => []

def bracketsOfStatements : List Statement → List Event
  | [] => []
  | s :: rest => s.brackets ++ bracketsOfStatements rest

/-- The calls that enter and leave a program and the programs inside, each of them once. -/
def Program.brackets : Program → List Event
  | p@⟨body, _, _⟩ => .entered p :: (bracketsOfStatements body ++ [.left p])

def bracketsOfInverse : Option Program → List Event
  | none => []
  | some p => p.brackets

end

theorem bracketsOfStatements_eq (statements : List Statement) :
    bracketsOfStatements statements = statements.flatMap Statement.brackets := by
  induction statements with
  | nil => rfl
  | cons s rest ih => rw [bracketsOfStatements, List.flatMap_cons, ih]

theorem Program.brackets_eq (p : Program) :
    p.brackets = .entered p :: (p.body.flatMap Statement.brackets ++ [.left p]) := by
  cases p
  rw [Program.brackets, bracketsOfStatements_eq]

theorem Statement.brackets_element (e : Element) :
    (Statement.element e).brackets = e.children.flatMap Statement.brackets := by
  cases e
  exact bracketsOfStatements_eq _

theorem Statement.brackets_block (b : Block) :
    (Statement.block b).brackets = b.program.brackets ++ b.inverse.elim [] Program.brackets := by
  obtain ⟨call, program, inverse, loc, extra⟩ := b
  cases inverse <;> rfl

namespace Visitor

def Event.isBracket : Event → Bool
  | .entered _ | .left _ => true
  | .shown _ _ => false

/-- The calls that enter or leave a program. -/
def brackets (calls : List Event) : List Event := calls.filter Event.isBracket

theorem brackets_program (p q : Program) (inside : List Event) :
    brackets (.entered p :: (inside ++ [.left q])) =
      .entered p :: (brackets inside ++ [.left q]) := by
  rw [brackets, List.filter_cons_of_pos rfl, List.filter_append]
  rfl

/-- Each program that is left is the one that was entered last and has not been left yet,
with the same block params. -/
inductive Nested : List Event → Prop
  | nil : Nested []
  | pair {p q : Program} {inside rest : List Event} (hparams : p.blockParams = q.blockParams)
      (hinside : Nested inside) (hrest : Nested rest) :
      Nested (.entered p :: (inside ++ .left q :: rest))

theorem Nested.append {calls later : List Event} (h : Nested calls) (hlater : Nested later) :
    Nested (calls ++ later) := by
  induction h with
  | nil => exact hlater
  | pair hparams hinside _ _ ih =>
      rw [List.cons_append, List.append_assoc, List.cons_append]
      exact .pair hparams hinside ih

/-- A call is the one for a program of a tree: what is left stands there, and what is entered
has the block params of what stands there. -/
def Event.Agrees : Event → Event → Prop
  | .entered p, .entered q => p.blockParams = q.blockParams
  | .left p, .left q => p = q
  | _, _ => False

/-- Some calls enter and leave what is entered and left in a tree. -/
structure Bracketed (calls tree : List Event) : Prop where
  nested : Nested (brackets calls)
  agrees : List.Forall₂ Event.Agrees (brackets calls) tree

namespace Bracketed

variable {calls later tree tree' : List Event}

theorem nil : Bracketed [] [] := ⟨.nil, .nil⟩

theorem append (h : Bracketed calls tree) (hlater : Bracketed later tree') :
    Bracketed (calls ++ later) (tree ++ tree') := by
  have hsplit : brackets (calls ++ later) = brackets calls ++ brackets later :=
    List.filter_append _ _
  constructor
  · rw [hsplit]
    exact h.nested.append hlater.nested
  · rw [hsplit]
    exact List.rel_append h.agrees hlater.agrees

/-- A statement that is shown in between makes no difference. -/
theorem shown (h : Bracketed calls tree) (x : Statement) (action : Action) :
    Bracketed (.shown x action :: calls) tree := ⟨h.nested, h.agrees⟩

theorem program {p q : Program} (hparams : p.blockParams = q.blockParams)
    (h : Bracketed calls (q.body.flatMap Statement.brackets)) :
    Bracketed (.entered p :: (calls ++ [.left q])) q.brackets := by
  constructor
  · rw [brackets_program]
    exact .pair hparams h.nested .nil
  · rw [brackets_program, q.brackets_eq]
    refine .cons hparams (List.rel_append h.agrees ?_)
    exact .cons rfl .nil

end Bracketed

variable {σ : Type}

/-- A visit of a program enters it, does what is inside, and leaves it. -/
def BracketedProgram (p q : Program) (calls : List Event) : Prop :=
  p.blockParams = q.blockParams ∧ ∃ inside, calls = .entered p :: (inside ++ [.left q]) ∧
    Bracketed inside (q.body.flatMap Statement.brackets)

theorem BracketedProgram.bracketed {p q : Program} {calls : List Event}
    (h : BracketedProgram p q calls) : Bracketed calls q.brackets := by
  obtain ⟨hparams, inside, rfl, hinside⟩ := h
  exact .program hparams hinside

theorem OnInverse.bracketed {inverse r : Option Program} {s t : σ} {calls : List Event}
    (h : OnInverse (fun p _ q _ calls => BracketedProgram p q calls) inverse s r t calls) :
    Bracketed calls (r.elim [] Program.brackets) := by
  cases inverse with
  | none =>
      obtain ⟨rfl, -, rfl⟩ := h
      exact .nil
  | some p =>
      obtain ⟨q, rfl, hq⟩ := h
      exact hq.bracketed

/-- The calls of a visit are the brackets of what it leaves. -/
def bracketLaw (v : Visitor σ) : Law v where
  statement _ _ left _ calls := Bracketed calls (left.toList.flatMap Statement.brackets)
  statements _ _ left _ calls := Bracketed calls (left.flatMap Statement.brackets)
  program p _ q _ calls := BracketedProgram p q calls
  nil _ := .nil
  cons hfirst hrest := by
    rw [List.flatMap_append]
    exact hfirst.append hrest
  body hbody := ⟨rfl, _, rfl, hbody⟩
  unseen {x s} hx := by
    cases x with
    | element | mustache | block => cases hx
    | text | comment | mustacheComment => exact .nil
  element _ hchildren := by
    apply Bracketed.shown
    simpa [Statement.brackets_element] using hchildren
  mustache _ := Bracketed.nil.shown _ _
  block _ hprogram hinverse := by
    apply Bracketed.shown
    simpa [Statement.brackets_block] using hprogram.bracketed.append hinverse.bracketed
  replace _ hleft := hleft.shown _ _
  remove _ := Bracketed.nil.shown _ _

/-- In a traversal that ends, the first program to be entered is the root as it was, and the
last to be left is the root as it has become. In between, what is left is what was entered
last, with the same block params. All in all the calls enter and leave the programs of the
resulting tree: each of them once, in its place, and as it stands there when it is left. -/
theorem traverse_brackets (v : Visitor σ) {depth : Nat} {p q : Program} {s t : σ}
    (h : v.traverse depth p s = some (q, t)) :
    ∃ log, v.recording.traverse depth p (s, []) = some (q, t, log) ∧
      p.blockParams = q.blockParams ∧
      (∃ inside, brackets log = .entered p :: (inside ++ [.left q]) ∧ Nested inside) ∧
      List.Forall₂ Event.Agrees (brackets log) q.brackets := by
  obtain ⟨log, hlaw, hrun⟩ := (bracketLaw v).traverse h
  obtain ⟨hparams, inside, hlog, hinside⟩ := hlaw
  refine ⟨log, hrun [], hparams, ⟨brackets inside, ?_, hinside.nested⟩, ?_⟩
  · rw [hlog, brackets_program]
  · rw [hlog]
    exact (Bracketed.program hparams hinside).agrees

/-- Puts a block with a block param in the place of every element, and counts them. -/
def boxing : Visitor Nat :=
  { keeping with
    element := fun e count =>
      let call : Call := ⟨Build.path "box", [], Build.hash []⟩
      ((.replace (.block (Build.block call (Build.program e.children ["item"]) none e.loc)), e),
        count + 1) }

/-- `<a><b></b></a>` -/
def nestedMarkup : Program :=
  let inner := Build.element "b" .synthetic
  Build.program [.element { Build.element "a" .synthetic with children := [.element inner] }] []

/-- `{{#box as |item|}}…{{/box}}` -/
def boxed (body : List Statement) : Block :=
  Build.block ⟨Build.path "box", [], Build.hash []⟩ (Build.program body ["item"]) none .synthetic

/-- Both blocks have come into the tree only during the walk, and are entered and left. -/
theorem traverse_brackets_boxing :
    let inner := boxed []
    let outer := boxed [.block inner]
    let root := Build.program [.block outer] []
    ∃ log, boxing.recording.traverse 5 nestedMarkup (0, []) = some (root, 2, log) ∧
      (∃ inside, brackets log = .entered nestedMarkup :: (inside ++ [.left root]) ∧
        Nested inside) ∧
      List.Forall₂ Event.Agrees (brackets log)
        [.entered root, .entered outer.program, .entered inner.program, .left inner.program,
          .left outer.program, .left root] := by
  intro inner outer root
  have hrun : boxing.traverse 5 nestedMarkup 0 = some (root, 2) := rfl
  obtain ⟨log, hlog, -, hnested, hagrees⟩ := traverse_brackets boxing hrun
  exact ⟨log, hlog, hnested, hagrees⟩

end Visitor

end CurlyTemplate
