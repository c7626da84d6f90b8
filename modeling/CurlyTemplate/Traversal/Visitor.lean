import CurlyTemplate.Syntax.Tree

/-!
# Traversal

A walk through a tree in the order of its text. A visitor meets every element, mustache
and block before what is inside and decides whether it stays, goes, or is replaced;
a replacement is visited itself. Bodies of blocks and the root are entered and left.

Nothing keeps a visitor from replacing without end, so the walk has a depth that it
goes down at most, each replacement being one step; `none` says that it did not
suffice.
-/

namespace CurlyTemplate

/-- What becomes of a visited node. -/
inductive Action where
  | keep
  | replace (s : Statement)
  | remove
deriving Repr, BEq

/-- A visitor with a state. A hook may change the node it is shown; the change counts
when the node is kept. -/
structure Visitor (σ : Type) where
  enter : Program → σ → σ
  exit : Program → σ → σ
  element : Element → σ → (Action × Element) × σ
  mustache : Mustache → σ → (Action × Mustache) × σ
  block : Block → σ → (Action × Block) × σ

namespace Visitor

variable {σ : Type}

/-- The visitor that keeps everything. -/
def keeping : Visitor σ where
  enter _ s := s
  exit _ s := s
  element e s := ((.keep, e), s)
  mustache m s := ((.keep, m), s)
  block b s := ((.keep, b), s)

/-- Shows a statement to the visitor. Text and comments are kept unseen. -/
def hook (v : Visitor σ) : Statement → σ → (Action × Statement) × σ
  | .element e, s =>
      let ((action, e), s) := v.element e s
      ((action, .element e), s)
  | .mustache m, s =>
      let ((action, m), s) := v.mustache m s
      ((action, .mustache m), s)
  | .block b, s =>
      let ((action, b), s) := v.block b s
      ((action, .block b), s)
  | other, s => ((.keep, other), s)

/-- How a single statement is visited: what is left of it, if anything. -/
abbrev Visit (σ : Type) := Statement → σ → Option (Option Statement × σ)

/-- Visits the statements of a list in order. -/
def walk (visit : Visit σ) : List Statement → σ → Option (List Statement × σ)
  | [], s => some ([], s)
  | x :: rest, s => do
      let (left, s) ← visit x s
      let (others, s) ← walk visit rest s
      pure (left.toList ++ others, s)

/-- Enters a program, visits its body and leaves it. -/
def visitProgram (v : Visitor σ) (visit : Visit σ) (p : Program) (s : σ) :
    Option (Program × σ) := do
  let (body, s) ← walk visit p.body (v.enter p s)
  let p := { p with body := body }
  pure (p, v.exit p s)

/-- Visits the body behind `{{else}}`, if there is one. -/
def visitInverse (v : Visitor σ) (visit : Visit σ) (inverse : Option Program) (s : σ) :
    Option (Option Program × σ) :=
  match inverse with
  | none => some (none, s)
  | some p => do
      let (p, s) ← v.visitProgram visit p s
      pure (some p, s)

def visitInside (v : Visitor σ) (visit : Visit σ) : Statement → σ → Option (Statement × σ)
  | .element e, s => do
      let (children, s) ← walk visit e.children s
      pure (.element { e with children := children }, s)
  | .block b, s => do
      let (program, s) ← v.visitProgram visit b.program s
      let (inverse, s) ← v.visitInverse visit b.inverse s
      pure (.block { b with program := program, inverse := inverse }, s)
  | other, s => some (other, s)

/-- Visits a statement, going down and replacing `depth` times at most. -/
def visitStatement (v : Visitor σ) : Nat → Visit σ
  | 0, _, _ => none
  | depth + 1, x, s =>
      match v.hook x s with
      | ((.keep, x), s) => do
          let (x, s) ← v.visitInside (v.visitStatement depth) x s
          pure (some x, s)
      | ((.replace y, _), s) => v.visitStatement depth y s
      | ((.remove, _), s) => some (none, s)

def traverse (v : Visitor σ) (depth : Nat) (p : Program) (s : σ) : Option (Program × σ) :=
  v.visitProgram (v.visitStatement depth) p s

end Visitor

end CurlyTemplate
