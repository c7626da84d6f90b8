/-!
# Characters of markup

The classes of characters by which a tag name is cut out of the text of an
element: a name starts at a letter or at `@`, and ends at a slash, at a closing
bracket or at a blank.
-/

namespace CurlyTemplate

namespace Text

/-- The blanks of markup: space, tab, line feed, form feed and carriage return. -/
def isBlank (c : Char) : Bool :=
  c == ' ' || c == '\t' || c == '\n' || c == '\r' || c == '\x0c'

/-- A tag name starts with an ASCII letter or, for a named argument, with `@`. -/
def isTagStart (c : Char) : Bool := c == '@' || c.isAlpha

/-- A tag name ends before a slash, a closing bracket or a blank. -/
def isTagEnd (c : Char) : Bool := c == '/' || c == '>' || isBlank c

end Text

end CurlyTemplate
