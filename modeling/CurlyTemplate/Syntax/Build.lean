import CurlyTemplate.Syntax.Tree
import CurlyTemplate.Text.Segments

/-!
# Building nodes

Nodes made and not read. Without a place of their own they get the synthetic span.
Nothing here checks the shape of what it builds.
-/

namespace CurlyTemplate

/-- Reads a path from the way it is written. A leading `@` and a leading `this` are
told apart and are not among the parts; `@this` is the named argument `this`. -/
def Path.ofChars (written : List Char) (loc : Span) : Path :=
  let (data, rest) := match written with
    | '@' :: rest => (true, rest)
    | _ => (false, written)
  let segments := Text.segments '.' rest
  let (this, parts) := match data, segments with
    | false, ['t', 'h', 'i', 's'] :: parts => (true, parts)
    | _, _ => (false, segments)
  ⟨String.ofList written, this, data, parts.map String.ofList, loc⟩

/-- Reads a path from the way it is written. -/
def Path.ofString (written : String) (loc : Span) : Path := Path.ofChars written.toList loc

namespace Build

/-- A path from the way it is written. -/
def path (written : String) : Expression := .path (Path.ofString written .synthetic)

def string (value : String) : Expression := .string value .synthetic

def boolean (value : Bool) : Expression := .boolean value .synthetic

def number (value : Float) : Expression := .number value .synthetic

def null : Expression := .null .synthetic

def hash (pairs : List HashPair) : Hash := ⟨pairs, .synthetic⟩

def pair (key : String) (value : Expression) : HashPair := ⟨key, value, .synthetic⟩

def sub (path : Expression) (params : List Expression) (hash : Hash) : Expression :=
  .sub ⟨path, params, hash⟩ .synthetic

def mustache (call : Call) (loc : Span) : Mustache := ⟨call, true, loc, []⟩

def block (call : Call) (program : Program) (inverse : Option Program) (loc : Span) : Block :=
  ⟨call, program, inverse, loc, []⟩

def program (body : List Statement) (blockParams : List String) : Program :=
  ⟨body, blockParams, .synthetic⟩

def modifier (call : Call) : Modifier := ⟨call, .synthetic⟩

/-- An element with nothing but a tag. -/
def element (tag : String) (loc : Span) : Element := ⟨tag, [], [], [], [], none, loc, []⟩

def attributeNode (name : String) (value : AttributeValue) (loc : Span) : Attribute :=
  ⟨name, value, loc⟩

def text (chars : String) : TextNode := ⟨chars, .synthetic⟩

/-- A quoted value that mixes text and calls. -/
def concat (parts : List ConcatPart) : AttributeValue := .concat parts .synthetic

def comment (value : String) : Comment := ⟨value, .synthetic⟩

end Build

end CurlyTemplate
