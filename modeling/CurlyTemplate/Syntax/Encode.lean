import CurlyTemplate.Syntax.Tree

/-!
# Trees as JSON

Each node is an object: the name of its kind under `type`, then its fields in a fixed
order, then its further members. A `selfClosing` that was not recorded is left out;
an absent `inverse` or `source` is written as `null`.
-/

namespace CurlyTemplate

open Json (Value Members)

def encodeStrings (ss : List String) : Value := .array (ss.map .string)

def Position.encode (p : Position) : Value :=
  .object [("line", .number (.int p.line)), ("column", .number (.int p.column))]

def Span.encode (s : Span) : Value :=
  .object [("source", s.source.elim .null .string), ("start", s.start.encode),
    ("end", s.stop.encode)]

def Path.encodeFields (p : Path) : Members :=
  [("original", .string p.written), ("this", .bool p.this), ("data", .bool p.data),
    ("parts", encodeStrings p.parts), ("loc", p.loc.encode)]

mutual

def Expression.encode : Expression → Value
  | .path p => .object (("type", .string "PathExpression") :: p.encodeFields)
  | .sub call loc =>
      .object (("type", .string "SubExpression") :: (call.encodeFields ++ [("loc", loc.encode)]))
  | .string value loc =>
      .object [("type", .string "StringLiteral"), ("value", .string value), ("loc", loc.encode)]
  | .boolean value loc =>
      .object [("type", .string "BooleanLiteral"), ("value", .bool value), ("loc", loc.encode)]
  | .number value loc =>
      .object [("type", .string "NumberLiteral"), ("value", .number (.float value)),
        ("loc", loc.encode)]
  | .null loc => .object [("type", .string "NullLiteral"), ("loc", loc.encode)]
  | .undefined loc => .object [("type", .string "UndefinedLiteral"), ("loc", loc.encode)]

def Call.encodeFields : Call → Members
  | { path, params, hash } =>
      [("path", path.encode), ("params", .array (encodeExpressions params)), ("hash", hash.encode)]

def encodeExpressions : List Expression → List Value
  | [] => []
  | e :: rest => e.encode :: encodeExpressions rest

def Hash.encode : Hash → Value
  | { pairs, loc } =>
      .object [("type", .string "Hash"), ("pairs", .array (encodePairs pairs)), ("loc", loc.encode)]

def encodePairs : List HashPair → List Value
  | [] => []
  | p :: rest => p.encode :: encodePairs rest

def HashPair.encode : HashPair → Value
  | { key, value, loc } =>
      .object [("type", .string "HashPair"), ("key", .string key), ("value", value.encode),
        ("loc", loc.encode)]

end

def TextNode.encode (t : TextNode) : Value :=
  .object [("type", .string "TextNode"), ("chars", .string t.chars), ("loc", t.loc.encode)]

def Mustache.encode (m : Mustache) : Value :=
  .object (("type", .string "MustacheStatement") :: (m.call.encodeFields ++
    ("escaped", .bool m.escaped) :: ("loc", m.loc.encode) :: m.extra))

def Modifier.encode (m : Modifier) : Value :=
  .object (("type", .string "ElementModifierStatement") ::
    (m.call.encodeFields ++ [("loc", m.loc.encode)]))

def Comment.encode (typeName : String) (c : Comment) : Value :=
  .object [("type", .string typeName), ("value", .string c.value), ("loc", c.loc.encode)]

def ConcatPart.encode : ConcatPart → Value
  | .text t => t.encode
  | .mustache m => m.encode

def AttributeValue.encode : AttributeValue → Value
  | .text t => t.encode
  | .mustache m => m.encode
  | .concat parts loc =>
      .object [("type", .string "ConcatStatement"), ("parts", .array (parts.map (·.encode))),
        ("loc", loc.encode)]

def Attribute.encode (a : Attribute) : Value :=
  .object [("type", .string "AttrNode"), ("name", .string a.name), ("value", a.value.encode),
    ("loc", a.loc.encode)]

mutual

def Statement.encode : Statement → Value
  | .element e => e.encode
  | .mustache m => m.encode
  | .block b => b.encode
  | .text t => t.encode
  | .comment c => c.encode "CommentStatement"
  | .mustacheComment c => c.encode "MustacheCommentStatement"

def encodeStatements : List Statement → List Value
  | [] => []
  | s :: rest => s.encode :: encodeStatements rest

def Element.encode : Element → Value
  | { tag, attributes, modifiers, children, blockParams, selfClosing, loc, extra } =>
      .object (("type", .string "ElementNode") :: ("tag", .string tag) ::
        ("attributes", .array (attributes.map (·.encode))) ::
        ("modifiers", .array (modifiers.map (·.encode))) ::
        ("children", .array (encodeStatements children)) ::
        ("blockParams", encodeStrings blockParams) ::
        (selfClosing.elim [] (fun b => [("selfClosing", .bool b)]) ++
          ("loc", loc.encode) :: extra))

def Block.encode : Block → Value
  | { call, program, inverse, loc, extra } =>
      .object (("type", .string "BlockStatement") :: (call.encodeFields ++
        ("program", program.encode) :: ("inverse", encodeInverse inverse) ::
        ("loc", loc.encode) :: extra))

def encodeInverse : Option Program → Value
  | none => .null
  | some p => p.encode

def Program.encode : Program → Value
  | { body, blockParams, loc } =>
      .object [("type", .string "Program"), ("body", .array (encodeStatements body)),
        ("blockParams", encodeStrings blockParams), ("loc", loc.encode)]

end

end CurlyTemplate
