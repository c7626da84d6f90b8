import CurlyTemplate.Decimal.Shortest
import Mathlib.Algebra.Order.Field.Power
import Mathlib.Data.Rat.Cast.Order
import Mathlib.Tactic.Linarith
import Mathlib.Tactic.NormNum
import Mathlib.Tactic.Positivity
import Mathlib.Tactic.Ring

/-!
# Shortest decimals as numbers

The shortest decimal of a magnitude lies no higher than halfway to the next one
(`value_shortest_le`), and above zero where the magnitude does (`digits_shortest_pos`).
-/

namespace CurlyTemplate

namespace Decimal

def Digits.value (d : Digits) : ℚ := d.digits * 10 ^ d.exponent

namespace Binary

variable {b : Binary} {d : Digits}

/-- The end of the interval of reals that round to a magnitude. -/
def upperEnd (b : Binary) : ℚ := (4 * b.significand + 2) * 2 ^ (b.exponent - 2)

theorem pow_toNat_eq {a : ℚ} (ha : a ≠ 0) (k : Int) :
    a ^ k.toNat = a ^ k * a ^ (-k).toNat := by
  rw [← zpow_natCast, ← zpow_natCast, ← zpow_add₀ ha]
  congr 1
  omega

theorem value_le_of_compareDigits {n : Nat} {e : Int} (h : compareDigits d n e ≠ .gt) :
    d.value ≤ n * 2 ^ e := by
  have hle : d.digits * Nat.pow 10 d.exponent.toNat * Nat.pow 2 (-e).toNat ≤
      n * Nat.pow 2 e.toNat * Nat.pow 10 (-d.exponent).toNat :=
    not_lt.mp fun hlt => h (Nat.compare_eq_gt.mpr hlt)
  have hcast : (d.digits * 10 ^ d.exponent.toNat * 2 ^ (-e).toNat : ℚ) ≤
      n * 2 ^ e.toNat * 10 ^ (-d.exponent).toNat := by
    exact_mod_cast hle
  rw [pow_toNat_eq (by norm_num) d.exponent, pow_toNat_eq two_ne_zero e] at hcast
  have hpos : (0 : ℚ) < 10 ^ (-d.exponent).toNat * 2 ^ (-e).toNat := by positivity
  refine le_of_mul_le_mul_right ?_ hpos
  calc d.value * (10 ^ (-d.exponent).toNat * 2 ^ (-e).toNat)
      = d.digits * (10 ^ d.exponent * 10 ^ (-d.exponent).toNat) * 2 ^ (-e).toNat := by
        rw [Digits.value]
        ring
    _ ≤ n * (2 ^ e * 2 ^ (-e).toNat) * 10 ^ (-d.exponent).toNat := hcast
    _ = n * 2 ^ e * (10 ^ (-d.exponent).toNat * 2 ^ (-e).toNat) := by ring

theorem value_le_of_readsBack (h : b.readsBack d = true) : d.value ≤ b.upperEnd := by
  simp only [readsBack, Bool.and_eq_true, Bool.or_eq_true, beq_iff_eq] at h
  have hne : compareDigits d (4 * b.significand + 2) (b.exponent - 2) ≠ .gt := fun hgt => by
    simp [hgt] at h
  have hle := value_le_of_compareDigits hne
  push_cast at hle
  exact hle

theorem digits_pos_of_readsBack (hb : 0 < b.significand) (h : b.readsBack d = true) :
    0 < d.digits := by
  refine Nat.pos_of_ne_zero fun hzero => ?_
  have hlow : compareDigits d (4 * b.significand - (if b.narrowBelow then 1 else 2))
      (b.exponent - 2) = .lt := by
    rw [compareDigits, hzero, Nat.compare_eq_lt, Nat.zero_mul, Nat.zero_mul]
    refine Nat.mul_pos (Nat.mul_pos ?_ (Nat.pow_pos (by decide))) (Nat.pow_pos (by decide))
    split <;> omega
  simp [readsBack, hlow] at h

theorem value_exact (b : Binary) : b.exact.value = b.significand * 2 ^ b.exponent := by
  unfold exact Digits.value
  split
  next h =>
    have hexp : (b.exponent.toNat : Int) = b.exponent := by omega
    push_cast [Nat.pow_eq]
    rw [mul_one, ← zpow_natCast, hexp]
  next h =>
    have hexp : b.exponent = -(b.exponent.natAbs : Int) := by omega
    have hten : (10 : ℚ) = 2 * 5 := by norm_num
    have hfive : (5 : ℚ) ^ b.exponent.natAbs ≠ 0 := by positivity
    push_cast [Nat.pow_eq]
    rw [hexp, Int.natAbs_neg, Int.natAbs_natCast, zpow_neg, zpow_neg, zpow_natCast, zpow_natCast,
      hten, mul_pow, mul_inv, mul_assoc, mul_comm (2 ^ _)⁻¹, mul_inv_cancel_left₀ hfive]

theorem value_exact_le (b : Binary) : b.exact.value ≤ b.upperEnd := by
  have hpos : (0 : ℚ) < 2 ^ (b.exponent - 2) := by positivity
  have hsplit : (2 : ℚ) ^ b.exponent = 4 * 2 ^ (b.exponent - 2) := by
    rw [zpow_sub₀ two_ne_zero]
    norm_num
    ring
  rw [value_exact, upperEnd, hsplit]
  nlinarith

end Binary

theorem value_stripZeros (fuel : Nat) (d : Digits) : (d.stripZeros fuel).value = d.value := by
  induction fuel generalizing d with
  | zero => rfl
  | succ fuel ih =>
      rw [Digits.stripZeros]
      split
      next h =>
        have hten : (d.digits : ℚ) = (d.digits / 10 : Nat) * 10 := by
          exact_mod_cast (Nat.div_mul_cancel (Nat.dvd_of_mod_eq_zero h.2)).symm
        rw [ih, Digits.value, Digits.value, zpow_add_one₀ (by norm_num), hten]
        push_cast
        ring
      next => rfl

theorem Digits.value_pos_iff {d : Digits} : 0 < d.value ↔ 0 < d.digits := by
  have hpos : (0 : ℚ) < 10 ^ d.exponent := by positivity
  rw [Digits.value, mul_pos_iff_of_pos_right hpos, Nat.cast_pos]

/-- What holds of all decimals that read back and of the exact one holds of the shortest, if it
does not depend on trailing zeros. -/
theorem shortest_induction {P : Digits → Prop} {tie : Tie} {b : Binary}
    (hreads : ∀ d, b.readsBack d = true → P d) (hexact : P b.exact)
    (hstrip : ∀ fuel d, P d → P (d.stripZeros fuel)) : P (shortest tie b) := by
  unfold shortest
  refine hstrip _ _ ?_
  generalize hfound : List.findSome? _ _ = found
  cases found with
  | none => exact hexact
  | some d =>
      obtain ⟨n, -, hgrid⟩ := List.exists_of_findSome?_eq_some hfound
      exact hreads d (Binary.readsBack_of_onGrid hgrid)

theorem value_shortest_le (tie : Tie) (b : Binary) : (shortest tie b).value ≤ b.upperEnd :=
  shortest_induction (P := fun d => d.value ≤ b.upperEnd)
    (fun _ => Binary.value_le_of_readsBack) b.value_exact_le
    fun fuel d h => (value_stripZeros fuel d).trans_le h

theorem digits_shortest_pos (tie : Tie) {b : Binary} (hb : 0 < b.significand) :
    0 < (shortest tie b).digits := by
  refine shortest_induction (fun d => Binary.digits_pos_of_readsBack hb) ?_ fun fuel d h => ?_
  · rw [← Digits.value_pos_iff, Binary.value_exact]
    have hb : (0 : ℚ) < b.significand := by exact_mod_cast hb
    positivity
  · rw [← Digits.value_pos_iff, value_stripZeros, Digits.value_pos_iff]
    exact h

end Decimal

end CurlyTemplate
