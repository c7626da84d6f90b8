import CurlyTemplate.Decimal.Layout
import CurlyTemplate.Syntax.Tree

/-!
# Printing templates

A tree as the text of a template. Attribute text has its double quotes written as
`&quot;`, a string literal has a backslash in front of quotes and backslashes. An
element without children is closed at once when it was recorded so; a void element
has neither children nor a closing tag.
-/

namespace CurlyTemplate

namespace Printer

/-- The elements of markup that have no closing tag. -/
def voidTags : List String :=
  ["area", "base", "br", "col", "command", "embed", "hr", "img", "input", "keygen", "link",
   "meta", "param", "source", "track", "wbr"]

/-- Numbers that are no integers have their point in its place, whatever their size. -/
def numberLayout : Decimal.Layout where
  tie := .awayFromZero
  positional _ := true
  pointZero := false

/-- The value of a double that is an integer. -/
def integer? (x : Float) : Option Int :=
  if x.isFinite then
    (Decimal.Binary.ofFloat x).integer?.map fun (n : Nat) =>
      if x.toBits.toNat / Nat.pow 2 63 = 1 then -(n : Int) else (n : Int)
  else none

/-- The nearest integer of 64 bits. -/
def clamp (n : Int) : Int :=
  let bound : Int := Nat.pow 2 63
  max (-bound) (min n (bound - 1))

/-- The text of a number literal: integers are brought into 64 bits. -/
def numberChars (x : Float) : List Char :=
  match integer? x with
  | some n => Decimal.signedNumeral (clamp n)
  | none =>
      if x.isNaN then ['N', 'a', 'N']
      else if x.isInf then
        if x < 0 then ['-', 'i', 'n', 'f'] else ['i', 'n', 'f']
      else numberLayout.write x

/-- Quotes and backslashes get a backslash in front of them. -/
def escapeString (s : List Char) : List Char :=
  s.flatMap fun c => if c = '"' ∨ c = '\\' then ['\\', c] else [c]

def quoteString (s : String) : List Char := '"' :: (escapeString s.toList ++ ['"'])

/-- Double quotes inside an attribute value become entities. -/
def escapeAttribute (s : List Char) : List Char :=
  s.flatMap fun c => if c = '"' then ['&', 'q', 'u', 'o', 't', ';'] else [c]

/-- Names between bars, when there are any: ` as |a b|`. -/
def blockParams : List String → List Char
  | [] => []
  | first :: rest =>
      " as |".toList ++ first.toList ++ rest.flatMap (fun name => ' ' :: name.toList) ++ ['|']

mutual

def expression : Expression → List Char
  | .path p => p.written.toList
  | .sub c _ => '(' :: (call c ++ [')'])
  | .string value _ => quoteString value
  | .boolean true _ => ['t', 'r', 'u', 'e']
  | .boolean false _ => ['f', 'a', 'l', 's', 'e']
  | .number value _ => numberChars value
  | .null _ => ['n', 'u', 'l', 'l']
  | .undefined _ => ['u', 'n', 'd', 'e', 'f', 'i', 'n', 'e', 'd']

/-- The text of a call: the path, then each argument behind a blank. -/
def call : Call → List Char
  | { path, params, hash } => expression path ++ arguments params ++ namedArguments hash

def arguments : List Expression → List Char
  | [] => []
  | e :: rest => ' ' :: (expression e ++ arguments rest)

def namedArguments : Hash → List Char
  | { pairs, .. } => hashPairs pairs

def hashPairs : List HashPair → List Char
  | [] => []
  | { key, value, .. } :: rest => ' ' :: (key.toList ++ '=' :: (expression value ++ hashPairs rest))

end

/-- The text of a call in curlies. -/
def mustache (m : Mustache) : List Char :=
  if m.escaped then '{' :: '{' :: (call m.call ++ ['}', '}'])
  else '{' :: '{' :: '{' :: (call m.call ++ ['}', '}', '}'])

/-- A piece of a quoted attribute value. -/
def concatPart : ConcatPart → List Char
  | .text t => escapeAttribute t.chars.toList
  | .mustache m => mustache m

/-- An attribute. Without text it is the name alone. -/
def attributeChars (a : Attribute) : List Char :=
  match a.value with
  | .text t =>
      if t.chars.isEmpty then a.name.toList
      else a.name.toList ++ '=' :: '"' :: (escapeAttribute t.chars.toList ++ ['"'])
  | .mustache m => a.name.toList ++ '=' :: mustache m
  | .concat parts _ => a.name.toList ++ '=' :: '"' :: (parts.flatMap concatPart ++ ['"'])

def modifier (m : Modifier) : List Char := '{' :: '{' :: (call m.call ++ ['}', '}'])

/-- The open tag of an element up to the bracket that closes it. -/
def openTag (tag : String) (attributes : List Attribute) (modifiers : List Modifier)
    (params : List String) : List Char :=
  '<' :: (tag.toList ++ attributes.flatMap (fun a => ' ' :: attributeChars a) ++
    modifiers.flatMap (fun m => ' ' :: modifier m) ++ blockParams params)

mutual

def statement : Statement → List Char
  | .element e => element e
  | .mustache m => mustache m
  | .block b => block b
  | .text t => t.chars.toList
  | .comment c => "<!--".toList ++ c.value.toList ++ "-->".toList
  | .mustacheComment c => "\x7b\x7b!--".toList ++ c.value.toList ++ "--\x7d\x7d".toList

/-- The text of statements one after the other. -/
def statements : List Statement → List Char
  | [] => []
  | s :: rest => statement s ++ statements rest

def element : Element → List Char
  | { tag, attributes, modifiers, children, blockParams, selfClosing, .. } =>
      let head := openTag tag attributes modifiers blockParams
      if selfClosing == some true && children.isEmpty then head ++ [' ', '/', '>']
      else if voidTags.contains tag then head ++ ['>']
      else head ++ '>' :: (statements children ++ '<' :: '/' :: (tag.toList ++ ['>']))

def block : Block → List Char
  | { call := c, program, inverse, .. } =>
      '{' :: '{' :: '#' :: (call c ++ openedBody program ++ elseBody inverse ++
        '{' :: '{' :: '/' :: (expression c.path ++ ['}', '}']))

/-- The names of a body, the end of the opening curlies and the body. -/
def openedBody : Program → List Char
  | { body, blockParams := params, .. } => blockParams params ++ '}' :: '}' :: statements body

def elseBody : Option Program → List Char
  | none => []
  | some { body, .. } => "\x7b\x7belse\x7d\x7d".toList ++ statements body

end

end Printer

def Program.print (p : Program) : String := String.ofList (Printer.statements p.body)

def Statement.print (s : Statement) : String := String.ofList (Printer.statement s)

def Expression.print (e : Expression) : String := String.ofList (Printer.expression e)

end CurlyTemplate
