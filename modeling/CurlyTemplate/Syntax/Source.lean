import CurlyTemplate.Syntax.Tree
import CurlyTemplate.Text.Markup
import CurlyTemplate.Text.Segments

/-!
# The text of a template

What was written can be read back through the span of a node: the name of a tag as
it was spelled, and whether an element was closed at once. Lines end at a line feed,
at a carriage return, or at both in this order; read back, each end is a line feed.
-/

namespace CurlyTemplate

/-- The lines of a text without their ends. -/
def splitLines : List Char → List (List Char)
  | [] => [[]]
  | '\r' :: '\n' :: rest => [] :: splitLines rest
  | c :: rest =>
      if c = '\r' ∨ c = '\n' then [] :: splitLines rest
      else
        match splitLines rest with
        | [] => [[c]]
        | first :: others => (c :: first) :: others

/-- The text of a template by lines, when there is one. -/
structure Source where
  lines : Option (List (List Char))
deriving Repr, DecidableEq

namespace Source

def unavailable : Source := ⟨none⟩

/-- The text of a template. The empty text is none. -/
def ofText : Option String → Source
  | none => unavailable
  | some text => if text.isEmpty then unavailable else ⟨some (splitLines text.toList)⟩

def isAvailable (source : Source) : Bool := source.lines.isSome

/-- The part of a line that a span covers. Columns beyond the line stand at its end. -/
def cutLine (start stop : Position) (line : List Char) (index : Nat) : List Char :=
  let upTo := if index = stop.line - 1 then line.take stop.column else line
  if index = start.line - 1 then upTo.drop start.column else upTo

/-- The text between two positions. Lines beyond the text are empty. -/
def textBetween (lines : List (List Char)) (start stop : Position) : List Char :=
  let first := start.line - 1
  let last := stop.line - 1
  if last < first then []
  else
    let count := last - first + 1
    let covered := (lines.drop first).take count
    let padded := covered ++ List.replicate (count - covered.length) []
    Text.joinSegments '\n' ((padded.zipIdx first).map fun (line, index) =>
      cutLine start stop line index)

/-- The text of a span, unless there is no text or the span names no place in it. -/
def textOf? (source : Source) (span : Span) : Option (List Char) :=
  match source.lines with
  | none => none
  | some lines => if span.isSynthetic then none else some (textBetween lines span.start span.stop)

/-- Whether the text of an element has a slash right before its first `>`. -/
def closesAtOnce (text : List Char) : Bool :=
  match text.dropWhile (· ≠ '>') with
  | [] => false
  | _ => (text.takeWhile (· ≠ '>')).getLast? == some '/'

/-- Whether an element was written `<a />`: as recorded, else as its text tells. -/
def selfClosing (source : Source) (e : Element) : Bool :=
  match e.selfClosing with
  | some b => b
  | none =>
      match source.textOf? e.loc with
      | some text => closesAtOnce text
      | none => false

/-- The name of the tag in the text of an element: behind the bracket, from the first
character that starts a name up to one that ends it. -/
def tagIn (text : List Char) : List Char :=
  ((text.drop 1).dropWhile (!Text.isTagStart ·)).takeWhile (!Text.isTagEnd ·)

/-- The name of the tag as written, or as recorded where the text does not tell. -/
def tagName (source : Source) (e : Element) : List Char :=
  match source.textOf? e.loc with
  | none => e.tag.toList
  | some text =>
      match tagIn text with
      | [] => e.tag.toList
      | tag => tag

@[simp] theorem textOf?_unavailable (span : Span) : unavailable.textOf? span = none := rfl

@[simp] theorem tagName_unavailable (e : Element) : unavailable.tagName e = e.tag.toList := rfl

end Source

end CurlyTemplate
