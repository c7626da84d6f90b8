import CurlyTemplate.Decimal.Layout
import CurlyTemplate.Json.Value

/-!
# Printing JSON

Two forms of a value: `compact` has no space at all, `pretty` puts every item and
member on a line of its own, two blanks deeper than the bracket around it. Doubles
have the fewest digits that read back; NaN and the infinities, for which JSON has
no numeral, are `null`.
-/

namespace CurlyTemplate

namespace Json

/-- Doubles have their point in its place from `1e-5` up to `1e+16`, with at least
one digit behind it, and otherwise an exponent with a sign. -/
def doubleLayout : Decimal.Layout where
  tie := .toEven
  positional e := decide (-5 ≤ e ∧ e < 16)
  pointZero := true

def doubleText (x : Float) : List Char :=
  if x.isFinite then doubleLayout.write x else ['n', 'u', 'l', 'l']

def Number.text : Number → List Char
  | .int n => Decimal.signedNumeral n
  | .float x => doubleText x

/-- The lower-case hexadecimal digit of a number below sixteen. -/
def hexDigit (n : Nat) : Char := Nat.digitChar n

/-- The characters that stand for one character inside a quoted string: quotes,
backslashes and control characters are escaped, all others stand for themselves. -/
def escape (c : Char) : List Char :=
  if c = '"' then ['\\', '"']
  else if c = '\\' then ['\\', '\\']
  else if c = '\x08' then ['\\', 'b']
  else if c = '\t' then ['\\', 't']
  else if c = '\n' then ['\\', 'n']
  else if c = '\x0c' then ['\\', 'f']
  else if c = '\r' then ['\\', 'r']
  else if c.toNat < 0x20 then
    ['\\', 'u', '0', '0', hexDigit (c.toNat / 16), hexDigit (c.toNat % 16)]
  else [c]

def quote (s : String) : List Char := '"' :: (s.toList.flatMap escape ++ ['"'])

mutual

/-- The text of a value without spaces. -/
def Value.compactChars : Value → List Char
  | .null => ['n', 'u', 'l', 'l']
  | .bool true => ['t', 'r', 'u', 'e']
  | .bool false => ['f', 'a', 'l', 's', 'e']
  | .number n => n.text
  | .string s => quote s
  | .array [] => ['[', ']']
  | .array (v :: rest) => '[' :: (v.compactChars ++ compactItems rest)
  | .object [] => ['{', '}']
  | .object ((k, v) :: rest) => '{' :: (quote k ++ ':' :: (v.compactChars ++ compactMembers rest))

/-- The items after the first, up to the closing bracket. -/
def compactItems : List Value → List Char
  | [] => [']']
  | v :: rest => ',' :: (v.compactChars ++ compactItems rest)

/-- The members after the first, up to the closing brace. -/
def compactMembers : List (String × Value) → List Char
  | [] => ['}']
  | (k, v) :: rest => ',' :: (quote k ++ ':' :: (v.compactChars ++ compactMembers rest))

end

/-- A line break and the indentation of a level. -/
def newline (level : Nat) : List Char := '\n' :: List.replicate (2 * level) ' '

mutual

/-- The text of a value on lines of its own, for a value that starts at a level. -/
def Value.prettyChars (level : Nat) : Value → List Char
  | .array (v :: rest) =>
      '[' :: (newline (level + 1) ++ (v.prettyChars (level + 1) ++ prettyItems level rest))
  | .object ((k, v) :: rest) =>
      '{' :: (newline (level + 1) ++ (quote k ++ ':' :: ' ' ::
        (v.prettyChars (level + 1) ++ prettyMembers level rest)))
  | v => v.compactChars

/-- The items after the first, up to the closing bracket. -/
def prettyItems (level : Nat) : List Value → List Char
  | [] => newline level ++ [']']
  | v :: rest =>
      ',' :: (newline (level + 1) ++ (v.prettyChars (level + 1) ++ prettyItems level rest))

/-- The members after the first, up to the closing brace. -/
def prettyMembers (level : Nat) : List (String × Value) → List Char
  | [] => newline level ++ ['}']
  | (k, v) :: rest =>
      ',' :: (newline (level + 1) ++ (quote k ++ ':' :: ' ' ::
        (v.prettyChars (level + 1) ++ prettyMembers level rest)))

end

def Value.compact (v : Value) : String := String.ofList v.compactChars

def Value.pretty (v : Value) : String := String.ofList (v.prettyChars 0)

@[simp] theorem toList_compact (v : Value) : v.compact.toList = v.compactChars := by
  simp [Value.compact]

@[simp] theorem toList_pretty (v : Value) : v.pretty.toList = v.prettyChars 0 := by
  simp [Value.pretty]

end Json

end CurlyTemplate
