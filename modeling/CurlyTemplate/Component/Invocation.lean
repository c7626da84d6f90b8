import CurlyTemplate.Component.Scope
import CurlyTemplate.Syntax.Build
import CurlyTemplate.Syntax.Source
import CurlyTemplate.Text.Capital
import CurlyTemplate.Text.Dasherize

/-!
# Invocations

An element is plain markup or invokes a component. The tag decides: `<@a>` invokes a
named argument, `<this.a>` a path, `<a.b>` with `a` in scope a local value, and a tag
that starts with a capital a component by name. The first of these that fits counts.
-/

namespace CurlyTemplate

namespace Component

/-- What the component is taken from when it is not fixed by its name. -/
inductive Callee where
  | namedArgument (path : Path)
  | thisPath (path : Path)
  | localPath (path : Path)
  /-- A single capitalized word, looked up under its dashed name. -/
  | registry (name : String)
deriving Repr, DecidableEq

/-- The expression that stands for a callee. -/
def Callee.expression : Callee → Expression
  | .namedArgument path | .thisPath path | .localPath path => .path path
  | .registry name => Build.string name

/-- What an element stands for. -/
inductive Invocation where
  | markup (hasSplat : Bool)
  /-- A component with a dashed name of several words. -/
  | static (name : String) (selfClosing hasSplat : Bool)
  | dynamic (callee : Callee) (selfClosing hasSplat : Bool)
deriving Repr, DecidableEq

/-- The attribute that forwards the attributes of the caller. -/
def splatName : String := "...attributes"

/-- Whether the attributes of the caller are forwarded. -/
def hasSplat (e : Element) : Bool := e.attributes.any (·.name == splatName)

/-- What an element stands for, given its tag as written and the names in scope. -/
def classifyTag (scope : Scope) (tag : List Char) (selfClosing hasSplat : Bool) : Invocation :=
  if tag.head? = some '@' then
    .dynamic (.namedArgument (Path.ofChars tag .synthetic)) selfClosing hasSplat
  else if "this.".toList.isPrefixOf tag then
    .dynamic (.thisPath (Path.ofChars tag .synthetic)) selfClosing hasSplat
  else if scope.contains (String.ofList (Text.headSegment '.' tag)) then
    .dynamic (.localPath (Path.ofChars tag .synthetic)) selfClosing hasSplat
  else if !tag.head?.any Text.isCapital then .markup hasSplat
  else
    let name := Text.dashed false tag
    if name.contains '-' then .static (String.ofList name) selfClosing hasSplat
    else .dynamic (.registry (String.ofList name)) selfClosing hasSplat

def classify (source : Source) (scope : Scope) (e : Element) : Invocation :=
  classifyTag scope (source.tagName e) (source.selfClosing e) (hasSplat e)

end Component

end CurlyTemplate
