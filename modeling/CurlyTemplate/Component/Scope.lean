/-!
# Scope

The names that the bodies around a node bring in, the outermost body first. A name
may stand there more than once.
-/

namespace CurlyTemplate

namespace Component

structure Scope where
  names : List String
deriving Repr, DecidableEq

namespace Scope

def empty : Scope := ⟨[]⟩

/-- Brings the names of a body into scope. -/
def push (scope : Scope) (names : List String) : Scope := ⟨scope.names ++ names⟩

/-- Drops the names that came last, at most all of them. -/
def pop (scope : Scope) (count : Nat) : Scope :=
  ⟨scope.names.take (scope.names.length - count)⟩

def contains (scope : Scope) (name : String) : Bool := scope.names.contains name

@[simp] theorem names_push (scope : Scope) (names : List String) :
    (scope.push names).names = scope.names ++ names := rfl

/-- Leaving a body restores the scope around it. -/
@[simp] theorem pop_push (scope : Scope) (names : List String) :
    (scope.push names).pop names.length = scope := by
  simp [push, pop]

@[simp] theorem contains_push (scope : Scope) (names : List String) (name : String) :
    (scope.push names).contains name = (scope.contains name || names.contains name) := by
  simp [contains, push]

end Scope

end Component

end CurlyTemplate
