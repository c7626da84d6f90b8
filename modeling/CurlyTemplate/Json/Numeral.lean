import CurlyTemplate.Json.Fault
import CurlyTemplate.Json.Value

/-!
# Reading numerals

A numeral is first cut out of the text (`Numeral.scan?`), then given its value
(`Numeral.value?`). An integer that fits 64 bits keeps its value. Any other numeral
becomes a double: as many of its leading digits as fit 64 bits are rounded to a
double, which is then multiplied or divided by a power of ten, each step rounding
once. A numeral beyond the doubles is out of range.
-/

namespace CurlyTemplate

namespace Json

/-- The parts of a numeral as written. Digits are numbers below ten. -/
structure Numeral where
  negative : Bool
  whole : List Nat
  /-- The digits behind the point, when there is a point. -/
  fraction : Option (List Nat)
  /-- The exponent behind `e`, when there is one. -/
  exponent : Option Int
deriving Repr, DecidableEq

def digit? (c : Char) : Option Nat :=
  if c.isDigit then some (c.toNat - '0'.toNat) else none

/-- The digits in front of a text, and what follows them. -/
def takeDigits : List Char → List Nat × List Char
  | [] => ([], [])
  | c :: rest =>
      match digit? c with
      | some d =>
          let (ds, left) := takeDigits rest
          (d :: ds, left)
      | none => ([], c :: rest)

/-- The number that a list of digits denotes. -/
def ofDigits (digits : List Nat) : Nat := digits.foldl (fun n d => 10 * n + d) 0

namespace Numeral

/-- Digits that must be there: where they are missing, the end of the text is told
apart from another character. -/
def digits1 (text : List Char) : Except Fault (List Nat × List Char) :=
  match takeDigits text, text with
  | ([], _), [] => .error .eofValue
  | ([], _), _ :: _ => .error .invalidNumber
  | (ds, rest), _ => .ok (ds, rest)

/-- The digits before the point: no zero in front of another digit. -/
def scanWhole (text : List Char) : Except Fault (List Nat × List Char) :=
  match digits1 text with
  | .ok (0 :: _ :: _, _) => .error .invalidNumber
  | r => r

/-- A point and the digits behind it. -/
def scanFraction (text : List Char) : Except Fault (Option (List Nat) × List Char) :=
  match text with
  | '.' :: rest => do
      let (ds, rest) ← digits1 rest
      pure (some ds, rest)
  | _ => .ok (none, text)

/-- The letter `e`, perhaps a sign, and the digits of the exponent. -/
def scanExponent (text : List Char) : Except Fault (Option Int × List Char) :=
  match text with
  | c :: rest =>
      if c = 'e' ∨ c = 'E' then
        match rest with
        | '-' :: rest => do
            let (ds, rest) ← digits1 rest
            pure (some (-(ofDigits ds : Int)), rest)
        | '+' :: rest => do
            let (ds, rest) ← digits1 rest
            pure (some (ofDigits ds), rest)
        | _ => do
            let (ds, rest) ← digits1 rest
            pure (some (ofDigits ds), rest)
      else .ok (none, text)
  | [] => .ok (none, text)

/-- Cuts a numeral from the front of a text. -/
def scan (text : List Char) : Except Fault (Numeral × List Char) := do
  let (negative, text) := match text with
    | '-' :: rest => (true, rest)
    | _ => (false, text)
  let (whole, text) ← scanWhole text
  let (fraction, text) ← scanFraction text
  let (exponent, text) ← scanExponent text
  pure (⟨negative, whole, fraction, exponent⟩, text)

/-- Appends digits to a number while it stays below `2 ^ 64`; the digits from the
first one that does not fit are left over. -/
def absorb : Nat → List Nat → Nat × List Nat
  | n, [] => (n, [])
  | n, d :: rest => if 10 * n + d < Nat.pow 2 64 then absorb (10 * n + d) rest else (n, d :: rest)

/-- The powers of ten that are doubles, from `10 ^ 0` on. -/
def powersOfTen : Array Float := (Array.range 309).map fun n => Float.ofScientific 1 false n

/-- The greatest power of ten that is a double. -/
def greatestPower : Float := Float.ofScientific 1 false 308

/-- A double times `10 ^ exponent`, `none` when it is out of range. Powers beyond
`10 ^ 308` are no doubles: a quotient then takes several steps. The fuel bounds
their number. -/
def scale : Nat → Float → Int → Option Float
  | 0, x, _ => some x
  | fuel + 1, x, exponent =>
      match powersOfTen[exponent.natAbs]? with
      | some power =>
          if 0 ≤ exponent then
            if (x * power).isInf then none else some (x * power)
          else some (x / power)
      | none =>
          if x == 0.0 then some x
          else if 0 ≤ exponent then none
          else scale fuel (x / greatestPower) (exponent + 308)

/-- The value of a numeral, `none` when it is out of range. -/
def value? (n : Numeral) : Option Number :=
  let (significand, left) := absorb 0 n.whole
  let sign (x : Float) : Number := .float (if n.negative then -x else x)
  match left, n.fraction, n.exponent with
  | [], none, none =>
      if !n.negative then some (.int significand)
      else if significand = 0 ∨ Nat.pow 2 63 < significand then
        some (sign (Float.ofScientific significand false 0))
      else some (.int (-significand))
  | left, fraction, exponent =>
      let behind := fraction.getD []
      let (significand, unused) := absorb significand behind
      let unit : Int := left.length - (behind.length - unused.length : Nat) + exponent.getD 0
      (scale (unit.natAbs / 308 + 1) (Float.ofScientific significand false 0) unit).map sign

/-- Reads a number from the front of a text. -/
def read (text : List Char) : Except Fault (Number × List Char) := do
  let (numeral, rest) ← scan text
  match numeral.value? with
  | some n => .ok (n, rest)
  | none => .error .numberOutOfRange

/-- Passes over a numeral whose value is not wanted. Here the end of the text is no
special case: a missing digit is always an invalid number. -/
def skip (text : List Char) : Except Fault (List Char) :=
  match scan text with
  | .ok (_, rest) => .ok rest
  | .error _ => .error .invalidNumber

end Numeral

end Json

end CurlyTemplate
