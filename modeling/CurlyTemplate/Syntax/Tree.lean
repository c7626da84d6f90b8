import CurlyTemplate.Json.Value
import CurlyTemplate.Syntax.Span

/-!
# The syntax tree of a template

Markup elements, curly calls inside text and around blocks, and the expressions
that the calls carry. A program is a list of statements together with the names it
brings into scope for them.
-/

namespace CurlyTemplate

/-- A path such as `foo.bar`, `this.foo` or `@foo`. -/
structure Path where
  /-- The path as written. -/
  written : String
  /-- The path starts at `this`, which is not among the parts. -/
  this : Bool
  /-- The path starts at a named argument; its `@` is not among the parts. -/
  data : Bool
  parts : List String
  loc : Span
deriving Repr, BEq, DecidableEq, Inhabited

mutual

inductive Expression where
  | path (p : Path)
  /-- A call in parentheses. -/
  | sub (call : Call) (loc : Span)
  | string (value : String) (loc : Span)
  | boolean (value : Bool) (loc : Span)
  | number (value : Float) (loc : Span)
  | null (loc : Span)
  | undefined (loc : Span)
deriving Repr, BEq

structure Call where
  path : Expression
  params : List Expression
  hash : Hash
deriving Repr, BEq

structure Hash where
  pairs : List HashPair
  loc : Span
deriving Repr, BEq

structure HashPair where
  key : String
  value : Expression
  loc : Span
deriving Repr, BEq

end

instance : Inhabited Expression := ⟨.null default⟩

/-- A call in double curlies, or in triple ones when its value is not to be escaped. -/
structure Mustache where
  call : Call
  escaped : Bool
  loc : Span
  /-- Further members of the node, kept as they were read. -/
  extra : Json.Members
deriving Repr, BEq

/-- No positional and no named argument. -/
def Call.isBare (c : Call) : Bool := c.params.isEmpty && c.hash.pairs.isEmpty

/-- A call inside an open tag that acts on the element. -/
structure Modifier where
  call : Call
  loc : Span
deriving Repr, BEq

structure TextNode where
  chars : String
  loc : Span
deriving Repr, BEq, DecidableEq

/-- A comment, in markup or in curlies. -/
structure Comment where
  value : String
  loc : Span
deriving Repr, BEq, DecidableEq

/-- A piece of a quoted attribute value. -/
inductive ConcatPart where
  | text (t : TextNode)
  | mustache (m : Mustache)
deriving Repr, BEq

inductive AttributeValue where
  | text (t : TextNode)
  | mustache (m : Mustache)
  /-- A quoted value that mixes text and calls. -/
  | concat (parts : List ConcatPart) (loc : Span)
deriving Repr, BEq

structure Attribute where
  name : String
  value : AttributeValue
  loc : Span
deriving Repr, BEq

mutual

/-- A node that can stand in the body of a program or of an element. -/
inductive Statement where
  | element (e : Element)
  | mustache (m : Mustache)
  | block (b : Block)
  | text (t : TextNode)
  | comment (c : Comment)
  | mustacheComment (c : Comment)
deriving Repr, BEq

structure Element where
  /-- The name of the tag as it was recorded, which need not be as it was written. -/
  tag : String
  attributes : List Attribute
  modifiers : List Modifier
  children : List Statement
  blockParams : List String
  /-- Whether the element was written `<a />`, when that was recorded. -/
  selfClosing : Option Bool
  loc : Span
  /-- Further members of the node, kept as they were read. -/
  extra : Json.Members
deriving Repr, BEq

/-- A call around a body: `{{#path param key=value}}…{{else}}…{{/path}}`. -/
structure Block where
  call : Call
  program : Program
  /-- The body behind `{{else}}`. -/
  inverse : Option Program
  loc : Span
  /-- Further members of the node, kept as they were read. -/
  extra : Json.Members
deriving Repr, BEq

/-- A body, with the names it brings into scope. -/
structure Program where
  body : List Statement
  blockParams : List String
  loc : Span
deriving Repr, BEq

end

namespace Expression

def loc : Expression → Span
  | .path p => p.loc
  | .sub _ loc | .string _ loc | .boolean _ loc | .number _ loc | .null loc | .undefined loc => loc

/-- The path that an expression is, if it is one. -/
def path? : Expression → Option Path
  | .path p => some p
  | _ => none

end Expression

namespace Statement

def loc : Statement → Span
  | .element e => e.loc
  | .mustache m => m.loc
  | .block b => b.loc
  | .text t => t.loc
  | .comment c | .mustacheComment c => c.loc

/-- The name under which a kind of statement is written down. -/
def typeName : Statement → String
  | .element _ => "ElementNode"
  | .mustache _ => "MustacheStatement"
  | .block _ => "BlockStatement"
  | .text _ => "TextNode"
  | .comment _ => "CommentStatement"
  | .mustacheComment _ => "MustacheCommentStatement"

end Statement

/-- The empty text stands for one that is still to be read. -/
instance : Inhabited TextNode := ⟨⟨"", default⟩⟩

end CurlyTemplate
