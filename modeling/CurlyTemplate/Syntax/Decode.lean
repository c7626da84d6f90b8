import CurlyTemplate.Decode.Union
import CurlyTemplate.Json.Reader
import CurlyTemplate.Syntax.Build

/-!
# Trees from JSON

The fields of every node, in the order of their declaration, with what stands for
one that is missing. Elements, mustaches and blocks keep members that are no fields.
Expressions and statements nest; a decoder gets a number of levels that it goes down
at most, and `levels` is more than a text may nest.
-/

namespace CurlyTemplate

open Decode (Decoder FieldDecoder Schema Variant requiredField optionalField union)

/-- More levels than a text may nest. -/
def Decode.levels : Nat := Json.nestingLimit + 1

def Position.schema : Schema Position where
  name := "SourcePosition"
  fields :=
    [requiredField "line" Decode.natural fun n p => { p with line := n },
     requiredField "column" Decode.natural fun n p => { p with column := n }]
  blank := ⟨0, 0⟩
  keep := none

def Span.schema : Schema Span where
  name := "SourceSpan"
  fields :=
    [optionalField "source" (Decode.optional Decode.string) fun o s => { s with source := o },
     requiredField "start" Position.schema.decode fun p s => { s with start := p },
     requiredField "end" Position.schema.decode fun p s => { s with stop := p }]
  blank := ⟨none, ⟨0, 0⟩, ⟨0, 0⟩⟩
  keep := none

/-- The field `loc`, which every node has. -/
def locField {σ : Type} (set : Span → σ → σ) : FieldDecoder σ :=
  optionalField "loc" Span.schema.decode set

def Path.schema : Schema Path where
  name := "PathExpression"
  fields :=
    [requiredField "original" Decode.string fun s p => { p with written := s },
     optionalField "this" Decode.boolean fun b p => { p with this := b },
     optionalField "data" Decode.boolean fun b p => { p with data := b },
     optionalField "parts" (Decode.list Decode.string) fun ss p => { p with parts := ss },
     locField fun loc p => { p with loc := loc }]
  blank := ⟨"", false, false, [], .synthetic⟩
  keep := none

/-- A literal: its value and its place. -/
def literalSchema {α : Type} (name : String) (decode : Decoder α) (blank : α) :
    Schema (α × Span) where
  name := name
  fields := [requiredField "value" decode fun a s => (a, s.2), locField fun loc s => (s.1, loc)]
  blank := (blank, .synthetic)
  keep := none

/-- A literal that is all said by its kind: its place. -/
def wordSchema (name : String) : Schema Span where
  name := name
  fields := [locField fun loc _ => loc]
  blank := .synthetic
  keep := none

def HashPair.schema (expression : Decoder Expression) : Schema HashPair where
  name := "HashPair"
  fields :=
    [requiredField "key" Decode.string fun s p => { p with key := s },
     requiredField "value" expression fun e p => { p with value := e },
     locField fun loc p => { p with loc := loc }]
  blank := ⟨"", default, .synthetic⟩
  keep := none

def Hash.schema (expression : Decoder Expression) : Schema Hash where
  name := "Hash"
  fields :=
    [optionalField "pairs" (Decode.list (HashPair.schema expression).decode)
       fun ps h => { h with pairs := ps },
     locField fun loc h => { h with loc := loc }]
  blank := ⟨[], .synthetic⟩
  keep := none

/-- The call of a node before any field was read. -/
def Call.blank : Call := ⟨default, [], ⟨[], .synthetic⟩⟩

/-- The fields of a call inside a node. -/
def callFields {σ : Type} (expression : Decoder Expression) (change : (Call → Call) → σ → σ) :
    List (FieldDecoder σ) :=
  [requiredField "path" expression fun e => change fun c => { c with path := e },
   optionalField "params" (Decode.list expression) fun es =>
      change fun c => { c with params := es },
   optionalField "hash" (Hash.schema expression).decode
     fun h => change fun c => { c with hash := h }]

/-- A call in parentheses, with its place. -/
def subSchema (expression : Decoder Expression) : Schema (Call × Span) where
  name := "SubExpression"
  fields :=
    callFields expression (fun f s => (f s.1, s.2)) ++ [locField fun loc s => (s.1, loc)]
  blank := (.blank, .synthetic)
  keep := none

/-- The variants of an expression, given how the expressions inside are decoded. -/
def Expression.variants (inner : Decoder Expression) : List (Variant Expression) :=
  [.ofRecord Path.schema .path,
   .ofRecord (subSchema inner) fun (call, loc) => .sub call loc,
   .ofRecord (literalSchema "StringLiteral" Decode.string "") fun (s, loc) => .string s loc,
   .ofRecord (literalSchema "BooleanLiteral" Decode.boolean false) fun (b, loc) => .boolean b loc,
   .ofRecord (literalSchema "NumberLiteral" Decode.double 0) fun (x, loc) => .number x loc,
   .ofRecord (wordSchema "NullLiteral") .null,
   .ofRecord (wordSchema "UndefinedLiteral") .undefined]

def Expression.decode : Nat → Decoder Expression
  | 0 => fun _ _ => .error (.malformed .recursionLimit)
  | levels + 1 => union "Expression" (Expression.variants (Expression.decode levels))

def TextNode.schema : Schema TextNode where
  name := "TextNode"
  fields :=
    [requiredField "chars" Decode.string fun s t => { t with chars := s },
     locField fun loc t => { t with loc := loc }]
  blank := ⟨"", .synthetic⟩
  keep := none

/-- A comment, under the name of its kind. -/
def Comment.schema (name : String) : Schema Comment where
  name := name
  fields :=
    [requiredField "value" Decode.string fun s c => { c with value := s },
     locField fun loc c => { c with loc := loc }]
  blank := ⟨"", .synthetic⟩
  keep := none

def Mustache.schema (expression : Decoder Expression) : Schema Mustache where
  name := "MustacheStatement"
  fields :=
    callFields expression (fun f m => { m with call := f m.call }) ++
      [optionalField "escaped" Decode.boolean fun b m => { m with escaped := b },
       locField fun loc m => { m with loc := loc }]
  blank := ⟨.blank, true, .synthetic, []⟩
  keep := some fun key value m => { m with extra := m.extra.insert key value }

def Modifier.schema (expression : Decoder Expression) : Schema Modifier where
  name := "ElementModifierStatement"
  fields :=
    callFields expression (fun f m => { m with call := f m.call }) ++
      [locField fun loc m => { m with loc := loc }]
  blank := ⟨.blank, .synthetic⟩
  keep := none

/-- Decodes a piece of a quoted attribute value. -/
def ConcatPart.decode (expression : Decoder Expression) : Decoder ConcatPart :=
  union "ConcatPart"
    [.ofRecord TextNode.schema .text, .ofRecord (Mustache.schema expression) .mustache]

/-- The pieces of a quoted attribute value and its place. -/
def concatSchema (expression : Decoder Expression) : Schema (List ConcatPart × Span) where
  name := "ConcatStatement"
  fields :=
    [requiredField "parts" (Decode.list (ConcatPart.decode expression)) fun ps s => (ps, s.2),
     locField fun loc s => (s.1, loc)]
  blank := ([], .synthetic)
  keep := none

def AttributeValue.decode (expression : Decoder Expression) : Decoder AttributeValue :=
  union "AttrValue"
    [.ofRecord TextNode.schema .text,
     .ofRecord (Mustache.schema expression) .mustache,
     .ofRecord (concatSchema expression) fun (parts, loc) => .concat parts loc]

def Attribute.schema (expression : Decoder Expression) : Schema Attribute where
  name := "AttrNode"
  fields :=
    [requiredField "name" Decode.string fun s a => { a with name := s },
     requiredField "value" (AttributeValue.decode expression) fun v a => { a with value := v },
     locField fun loc a => { a with loc := loc }]
  blank := ⟨"", .text default, .synthetic⟩
  keep := none

def Element.schema (expression : Decoder Expression) (statement : Decoder Statement) :
    Schema Element where
  name := "ElementNode"
  fields :=
    [requiredField "tag" Decode.string fun s e => { e with tag := s },
     optionalField "attributes" (Decode.list (Attribute.schema expression).decode)
       fun xs e => { e with attributes := xs },
     optionalField "modifiers" (Decode.list (Modifier.schema expression).decode)
       fun ms e => { e with modifiers := ms },
     optionalField "children" (Decode.list statement) fun ss e => { e with children := ss },
     optionalField "blockParams" (Decode.list Decode.string)
       fun names e => { e with blockParams := names },
     optionalField "selfClosing" (Decode.optional Decode.boolean)
       fun o e => { e with selfClosing := o },
     locField fun loc e => { e with loc := loc }]
  blank := Build.element "" .synthetic
  keep := some fun key value e => { e with extra := e.extra.insert key value }

def Program.schema (statement : Decoder Statement) : Schema Program where
  name := "Program"
  fields :=
    [optionalField "body" (Decode.list statement) fun ss p => { p with body := ss },
     optionalField "blockParams" (Decode.list Decode.string)
       fun names p => { p with blockParams := names },
     locField fun loc p => { p with loc := loc }]
  blank := ⟨[], [], .synthetic⟩
  keep := none

def Block.schema (expression : Decoder Expression) (statement : Decoder Statement) :
    Schema Block where
  name := "BlockStatement"
  fields :=
    callFields expression (fun f b => { b with call := f b.call }) ++
      [requiredField "program" (Program.schema statement).decode fun p b => { b with program := p },
       optionalField "inverse" (Decode.optional (Program.schema statement).decode)
         fun o b => { b with inverse := o },
       locField fun loc b => { b with loc := loc }]
  blank := ⟨.blank, ⟨[], [], .synthetic⟩, none, .synthetic, []⟩
  keep := some fun key value b => { b with extra := b.extra.insert key value }

/-- The variants of a statement, given how expressions and the statements inside are
decoded. -/
def Statement.variants (expression : Decoder Expression) (inner : Decoder Statement) :
    List (Variant Statement) :=
  [.ofRecord (Element.schema expression inner) .element,
   .ofRecord (Mustache.schema expression) .mustache,
   .ofRecord (Block.schema expression inner) .block,
   .ofRecord TextNode.schema .text,
   .ofRecord (Comment.schema "CommentStatement") .comment,
   .ofRecord (Comment.schema "MustacheCommentStatement") .mustacheComment]

def Statement.decode : Nat → Decoder Statement
  | 0 => fun _ _ => .error (.malformed .recursionLimit)
  | levels + 1 =>
      union "Statement" (Statement.variants (Expression.decode levels) (Statement.decode levels))

def Program.decode (levels : Nat) : Decoder Program :=
  (Program.schema (Statement.decode levels)).decode

end CurlyTemplate
