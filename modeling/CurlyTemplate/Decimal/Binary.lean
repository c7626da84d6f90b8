/-!
# Binary magnitudes

A finite double without its sign is `significand * 2 ^ exponent` with naturals
and integers, so that every question about it has an exact answer. The reals that
round to it form an interval whose ends lie halfway to its two neighbours and belong
to it exactly when the significand is even; `Binary.readsBack` is that interval as a
test on decimals.
-/

namespace CurlyTemplate

namespace Decimal

/-- A decimal number `digits * 10 ^ exponent`. -/
structure Digits where
  digits : Nat
  exponent : Int
deriving Repr, DecidableEq

/-- A finite magnitude `significand * 2 ^ exponent`. -/
structure Binary where
  significand : Nat
  exponent : Int
  /-- The neighbour below is half as far away as the neighbour above. -/
  narrowBelow : Bool
deriving Repr, DecidableEq

namespace Binary

/-- The magnitude of a finite double. Its sign, NaN and the infinities are the
caller's concern. -/
def ofFloat (x : Float) : Binary :=
  let bits : Nat := x.toBits.toNat % Nat.pow 2 63
  let field : Nat := bits / Nat.pow 2 52
  let fraction := bits % Nat.pow 2 52
  if field = 0 then ⟨fraction, -1074, false⟩
  else ⟨Nat.pow 2 52 + fraction, (field : Int) - 1075, decide (fraction = 0 ∧ 1 < field)⟩

/-- The magnitude as a quotient of naturals in the unit `10 ^ unit`. -/
def quotient (b : Binary) (unit : Int) : Nat × Nat :=
  (b.significand * Nat.pow 2 b.exponent.toNat * Nat.pow 10 (-unit).toNat,
    Nat.pow 2 (-b.exponent).toNat * Nat.pow 10 unit.toNat)

/-- Order of a decimal against `n * 2 ^ exponent`. -/
def compareDigits (d : Digits) (n : Nat) (exponent : Int) : Ordering :=
  compare (d.digits * Nat.pow 10 d.exponent.toNat * Nat.pow 2 (-exponent).toNat)
    (n * Nat.pow 2 exponent.toNat * Nat.pow 10 (-d.exponent).toNat)

/-- The decimal lies among the reals that round to this magnitude. -/
def readsBack (b : Binary) (d : Digits) : Bool :=
  let below := 4 * b.significand - (if b.narrowBelow then 1 else 2)
  let low := compareDigits d below (b.exponent - 2)
  let high := compareDigits d (4 * b.significand + 2) (b.exponent - 2)
  let closed := b.significand % 2 == 0
  (low == .gt || (closed && low == .eq)) && (high == .lt || (closed && high == .eq))

/-- The magnitude as an integer, when it is one. -/
def integer? (b : Binary) : Option Nat :=
  let scale := Nat.pow 2 (-b.exponent).toNat
  if b.significand % scale = 0 then some (b.significand / scale * Nat.pow 2 b.exponent.toNat)
  else none

theorem integer?_of_nonneg {b : Binary} (h : 0 ≤ b.exponent) :
    b.integer? = some (b.significand * Nat.pow 2 b.exponent.toNat) := by
  have hz : (-b.exponent).toNat = 0 := by omega
  simp [integer?, hz, Nat.mod_one]

end Binary

end Decimal

end CurlyTemplate
