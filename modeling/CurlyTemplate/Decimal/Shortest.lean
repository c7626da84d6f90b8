import CurlyTemplate.Decimal.Binary

/-!
# Shortest decimals

`shortest` gives the decimal with the fewest digits among those that read back as a
magnitude, and of these the one closest to it. It tries grids of one, two, three and
more digits: on each the two neighbours of the magnitude decide whether the grid has
a decimal that reads back. Of two equally close ones the `Tie` rule chooses.
-/

namespace CurlyTemplate

namespace Decimal

/-- Which of two equally close decimals is taken. -/
inductive Tie where
  | toEven
  | awayFromZero
deriving Repr, DecidableEq

namespace Binary

/-- The least `k` with the magnitude below `10 ^ k`. The start lies at most one below,
as 0.30103 exceeds the decimal logarithm of two by less than one part in a million. -/
def magnitude (b : Binary) : Int :=
  let start := Int.fdiv (((b.significand.log2 : Int) + b.exponent) * 30103) 100000
  let below (k : Int) : Bool :=
    let (n, d) := b.quotient k
    decide (n < d)
  if below start then start else if below (start + 1) then start + 1 else start + 2

/-- Whether `n / d` is nearer to `n / d + 1` than to `n / d`, both rounded down. -/
def roundsUp (tie : Tie) (n d : Nat) : Bool :=
  match compare (2 * n) ((2 * (n / d) + 1) * d), tie with
  | .lt, _ => false
  | .gt, _ => true
  | .eq, .toEven => n / d % 2 == 1
  | .eq, .awayFromZero => true

/-- The decimal chosen on the grid of multiples of `10 ^ unit`: of the two neighbours
of the magnitude the one that reads back, and the closer one if both do. -/
def onGrid (tie : Tie) (b : Binary) (unit : Int) : Option Digits :=
  let n := (b.quotient unit).1
  let d := (b.quotient unit).2
  let lower : Digits := ⟨n / d, unit⟩
  let upper : Digits := ⟨n / d + 1, unit⟩
  match b.readsBack lower, b.readsBack upper with
  | false, false => none
  | true, false => some lower
  | false, true => some upper
  | true, true => some (if roundsUp tie n d then upper else lower)

/-- The decimal with exactly the value of the magnitude. -/
def exact (b : Binary) : Digits :=
  if 0 ≤ b.exponent then ⟨b.significand * Nat.pow 2 b.exponent.toNat, 0⟩
  else ⟨b.significand * Nat.pow 5 b.exponent.natAbs, b.exponent⟩

end Binary

/-- Moves the trailing zeros of the digits into the exponent. The first argument
bounds their number. -/
def Digits.stripZeros : Nat → Digits → Digits
  | 0, d => d
  | fuel + 1, d =>
      if d.digits ≠ 0 ∧ d.digits % 10 = 0 then
        stripZeros fuel ⟨d.digits / 10, d.exponent + 1⟩
      else d

/-- The shortest decimal that reads back as the magnitude. Seventeen digits suffice
for a double; beyond them the exact decimal stands. -/
def shortest (tie : Tie) (b : Binary) : Digits :=
  let top := b.magnitude
  let found := (List.range 17).findSome? fun (n : Nat) => b.onGrid tie (top - (n + 1))
  let d := found.getD b.exact
  d.stripZeros (d.digits.log2 + 1)

/-- What a grid yields reads back. -/
theorem Binary.readsBack_of_onGrid {tie : Tie} {b : Binary} {unit : Int} {d : Digits}
    (h : b.onGrid tie unit = some d) : b.readsBack d = true := by
  simp only [Binary.onGrid] at h
  split at h
  · simp at h
  · next hl _ => exact Option.some.inj h ▸ hl
  · next _ hu => exact Option.some.inj h ▸ hu
  · next hl hu =>
      obtain rfl := Option.some.inj h
      split
      · exact hu
      · exact hl

end Decimal

end CurlyTemplate
