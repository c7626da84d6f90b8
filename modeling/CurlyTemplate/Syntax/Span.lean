/-!
# Spans

Where a node stands in the text of its template. Lines count from one, columns
count characters from zero. A node that was built and not read has the synthetic
span, which names no place in any text.
-/

namespace CurlyTemplate

/-- A place between two characters. -/
structure Position where
  line : Nat
  column : Nat
deriving Repr, DecidableEq, Inhabited

/-- The text of a position, as in `3:14`. -/
def Position.display (p : Position) : String := s!"{p.line}:{p.column}"

/-- The stretch between two positions of a source. -/
structure Span where
  source : Option String
  start : Position
  stop : Position
deriving Repr, DecidableEq

namespace Span

/-- The source named by nodes that were built. -/
def syntheticSource : String := "(synthetic)"

/-- The span of a node that was built. -/
def synthetic : Span := ⟨some syntheticSource, ⟨1, 0⟩, ⟨1, 0⟩⟩

instance : Inhabited Span := ⟨synthetic⟩

/-- The stretch between two positions of an unnamed source. -/
def between (start stop : Position) : Span := ⟨none, start, stop⟩

/-- Whether a span belongs to a node that was built. The source alone decides. -/
def isSynthetic (s : Span) : Bool := s.source == some syntheticSource

@[simp] theorem isSynthetic_synthetic : synthetic.isSynthetic = true := by
  simp [isSynthetic, synthetic]

@[simp] theorem isSynthetic_between (start stop : Position) :
    (between start stop).isSynthetic = false := rfl

/-- The text of a span, as in `foo@1:0-2:6`, or `1:0-2:6` when the source has no name. -/
def display (s : Span) : String :=
  match s.source with
  | some source => s!"{source}@{s.start.display}-{s.stop.display}"
  | none => s!"{s.start.display}-{s.stop.display}"

end Span

end CurlyTemplate
