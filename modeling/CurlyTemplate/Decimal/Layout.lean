import CurlyTemplate.Decimal.Shortest

/-!
# Layout of decimals

How the digits of a double are written: with the point in its place, or with an
exponent behind the leading digit. A `Layout` records the choices of one format.
-/

namespace CurlyTemplate

namespace Decimal

/-- The choices of a format that writes shortest decimals. -/
structure Layout where
  /-- Of two equally close decimals the one that is written. -/
  tie : Tie
  /-- Exponents of the leading digit for which the point is put in its place. -/
  positional : Int → Bool
  /-- An integral value in positional form ends in `.0`. -/
  pointZero : Bool

def numeral (n : Nat) : List Char := Nat.toDigits 10 n

/-- The numeral of an integer: a minus sign for a negative one, none for others. -/
def signedNumeral (n : Int) : List Char :=
  if n < 0 then '-' :: numeral n.natAbs else numeral n.natAbs

/-- The point in its place: `leading` is the exponent of the first digit. -/
def positionalForm (pointZero : Bool) (digits : List Char) (leading : Int) : List Char :=
  if leading < 0 then
    '0' :: '.' :: (List.replicate (leading.natAbs - 1) '0' ++ digits)
  else
    let whole := leading.toNat + 1
    if digits.length ≤ whole then
      digits ++ List.replicate (whole - digits.length) '0' ++ if pointZero then ['.', '0'] else []
    else digits.take whole ++ '.' :: digits.drop whole

/-- The leading digit, the others behind a point, and a signed exponent. -/
def scientificForm (digits : List Char) (leading : Int) : List Char :=
  let mantissa := match digits with
    | first :: second :: rest => first :: '.' :: second :: rest
    | short => short
  mantissa ++ 'e' :: (if leading < 0 then '-' else '+') :: numeral leading.natAbs

def Layout.write (layout : Layout) (x : Float) : List Char :=
  let b := Binary.ofFloat x
  let sign := if x.toBits.toNat / Nat.pow 2 63 = 1 then ['-'] else []
  let d := if b.significand = 0 then ⟨0, 0⟩ else shortest layout.tie b
  let digits := numeral d.digits
  let leading := d.exponent + digits.length - 1
  sign ++ if layout.positional leading then positionalForm layout.pointZero digits leading
    else scientificForm digits leading

end Decimal

end CurlyTemplate
