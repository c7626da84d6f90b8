import CurlyTemplate.Proofs.Decode.Edits
import CurlyTemplate.Syntax.Encode

/-!
# The grammar of template documents

The kinds of nodes in a document and their fields: the name of each, what stands for it where
it may be missing, and what it holds. Elements, mustaches and blocks keep further members.
-/

namespace CurlyTemplate

open Decode (FieldForm Grammar Shape)

inductive Kind where
  | document
  | program
  | element
  | attribute
  | modifier
  | mustache
  | block
  | text
  | comment
  | mustacheComment
  | concat
  | path
  | sub
  | string
  | boolean
  | number
  | null
  | undefined
  | hash
  | pair
  | span
  | position
deriving Repr, DecidableEq

namespace Kind

/-- The name of a kind of node. Those of unions stand under `type`. -/
def name : Kind → String
  | .document => "TemplateDocument"
  | .program => "Program"
  | .element => "ElementNode"
  | .attribute => "AttrNode"
  | .modifier => "ElementModifierStatement"
  | .mustache => "MustacheStatement"
  | .block => "BlockStatement"
  | .text => "TextNode"
  | .comment => "CommentStatement"
  | .mustacheComment => "MustacheCommentStatement"
  | .concat => "ConcatStatement"
  | .path => "PathExpression"
  | .sub => "SubExpression"
  | .string => "StringLiteral"
  | .boolean => "BooleanLiteral"
  | .number => "NumberLiteral"
  | .null => "NullLiteral"
  | .undefined => "UndefinedLiteral"
  | .hash => "Hash"
  | .pair => "HashPair"
  | .span => "SourceSpan"
  | .position => "SourcePosition"

def statements : List Kind := [.element, .mustache, .block, .text, .comment, .mustacheComment]

def concatParts : List Kind := [.text, .mustache]

def attributeValues : List Kind := [.text, .mustache, .concat]

def expressions : List Kind := [.path, .sub, .string, .boolean, .number, .null, .undefined]

/-- The place of a node, which is synthetic where it is not told. -/
def locField : FieldForm Kind := ⟨"loc", some Span.synthetic.encode, .node .span⟩

def callFields : List (FieldForm Kind) :=
  [⟨"path", none, .variant expressions⟩,
   ⟨"params", some (.array []), .list (.variant expressions)⟩,
   ⟨"hash", some (Hash.encode ⟨[], .synthetic⟩), .node .hash⟩]

def fields : Kind → List (FieldForm Kind)
  | .document =>
      [⟨"moduleName", some .null, .scalar⟩, ⟨"contents", some .null, .scalar⟩,
       ⟨"ast", none, .node .program⟩]
  | .program =>
      [⟨"body", some (.array []), .list (.variant statements)⟩,
       ⟨"blockParams", some (.array []), .list .scalar⟩, locField]
  | .element =>
      [⟨"tag", none, .scalar⟩, ⟨"attributes", some (.array []), .list (.node .attribute)⟩,
       ⟨"modifiers", some (.array []), .list (.node .modifier)⟩,
       ⟨"children", some (.array []), .list (.variant statements)⟩,
       ⟨"blockParams", some (.array []), .list .scalar⟩, ⟨"selfClosing", some .null, .scalar⟩,
       locField]
  | .attribute =>
      [⟨"name", none, .scalar⟩, ⟨"value", none, .variant attributeValues⟩, locField]
  | .modifier | .sub => callFields ++ [locField]
  | .mustache => callFields ++ [⟨"escaped", some (.bool true), .scalar⟩, locField]
  | .block =>
      callFields ++
        [⟨"program", none, .node .program⟩, ⟨"inverse", some .null, .node .program⟩, locField]
  | .text => [⟨"chars", none, .scalar⟩, locField]
  | .comment | .mustacheComment | .string | .boolean | .number =>
      [⟨"value", none, .scalar⟩, locField]
  | .concat => [⟨"parts", none, .list (.variant concatParts)⟩, locField]
  | .path =>
      [⟨"original", none, .scalar⟩, ⟨"this", some (.bool false), .scalar⟩,
       ⟨"data", some (.bool false), .scalar⟩, ⟨"parts", some (.array []), .list .scalar⟩, locField]
  | .null | .undefined => [locField]
  | .hash => [⟨"pairs", some (.array []), .list (.node .pair)⟩, locField]
  | .pair => [⟨"key", none, .scalar⟩, ⟨"value", none, .variant expressions⟩, locField]
  | .span =>
      [⟨"source", some .null, .scalar⟩, ⟨"start", none, .node .position⟩,
       ⟨"end", none, .node .position⟩]
  | .position => [⟨"line", none, .scalar⟩, ⟨"column", none, .scalar⟩]

/-- The kinds that keep members that are no fields. -/
def isOpen : Kind → Bool
  | .element | .mustache | .block => true
  | _ => false

end Kind

/-- The grammar of template documents. -/
def grammar : Grammar Kind := ⟨Kind.name, Kind.fields, Kind.isOpen⟩

end CurlyTemplate
