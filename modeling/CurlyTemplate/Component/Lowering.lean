import CurlyTemplate.Component.Attributes
import CurlyTemplate.Traversal.Visitor

/-!
# Lowering components to curly calls

Elements that invoke components become the curly calls that stand for them: a mustache
when the element was closed at once, else a block around its children. Markup stays,
but attributes of the caller that it forwards are applied by a modifier. `lower` does
so in a whole tree, keeping account of the names in scope.
-/

namespace CurlyTemplate

namespace Component

/-- The helper that invokes a component that is not fixed by its name. -/
def componentHelper : String := "component"

/-- The modifier that applies the attributes of the caller. -/
def splatModifier : String := "_splattributes"

/-- Markup with the splat attribute replaced by a modifier. -/
def applySplat (e : Element) : Element :=
  { e with
    attributes := e.attributes.filter (·.name != splatName)
    modifiers := e.modifiers ++
      [Build.modifier ⟨Build.path splatModifier, [Build.path attributesName], Build.hash []⟩] }

/-- The statement for an invocation, and what the call leaves of the element. -/
def emit (e : Element) (path : Expression) (params : List Expression)
    (selfClosing hasSplat : Bool) : Statement × Element :=
  let call : Call := ⟨path, params, invocationHash e.attributes hasSplat⟩
  if selfClosing then (.mustache (Build.mustache call e.loc), { e with attributes := [] })
  else
    (.block (Build.block call (Build.program e.children e.blockParams) none e.loc),
      { e with attributes := [], children := [], blockParams := [] })

/-- What becomes of an element, and what is left of it. -/
def lowerElement (e : Element) : Invocation → Action × Element
  | .markup false => (.keep, e)
  | .markup true => (.keep, applySplat e)
  | .static name selfClosing hasSplat =>
      let (s, left) := emit e (Build.path name) [] selfClosing hasSplat
      (.replace s, left)
  | .dynamic callee selfClosing hasSplat =>
      let (s, left) :=
        emit e (Build.path componentHelper) [callee.expression] selfClosing hasSplat
      (.replace s, left)

/-- The visitor that lowers, with the scope as its state. -/
def lowering (source : Source) : Visitor Scope where
  enter p scope := scope.push p.blockParams
  exit p scope := scope.pop p.blockParams.length
  element e scope := (lowerElement e (classify source scope e), scope)
  mustache m scope := ((.keep, m), scope)
  block b scope := ((.keep, b), scope)

end Component

mutual

/-- How deep statements nest in one: one for a statement with none inside. -/
def Statement.height : Statement → Nat
  | .element { children, .. } => heightOfStatements children + 1
  | .block { program, inverse, .. } => max program.height (heightOfInverse inverse) + 1
  | _ => 1

/-- The greatest height in a list. -/
def heightOfStatements : List Statement → Nat
  | [] => 0
  | s :: rest => max s.height (heightOfStatements rest)

def Program.height : Program → Nat
  | { body, .. } => heightOfStatements body

/-- The height of the body behind `{{else}}`. -/
def heightOfInverse : Option Program → Nat
  | none => 0
  | some p => p.height

end

namespace Component

/-- A depth that suffices: every element is replaced once at most. -/
def loweringDepth (p : Program) : Nat := 2 * p.height

/-- Lowers every component that a program invokes. -/
def lower (source : Source) (p : Program) : Program :=
  match (lowering source).traverse (loweringDepth p) p .empty with
  | some (p, _) => p
  | none => p

end Component

end CurlyTemplate
