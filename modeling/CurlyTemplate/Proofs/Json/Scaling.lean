import CurlyTemplate.Json.Numeral
import CurlyTemplate.Proofs.Decimal.Arithmetic

/-!
# Doubles times powers of ten

What `Numeral.scale` makes of a double while the power of ten is a double itself: one
product, unless that is out of range, or one quotient. Whatever comes of a finite double is
finite (`Numeral.isFinite_of_scale`), and something does come of it downwards, and upwards
below a limit (`Numeral.exists_scale`).
-/

namespace CurlyTemplate

namespace Json

namespace Numeral

open Decimal (safeLimit safeLimit_bounds)

theorem getElem?_powersOfTen {n : Nat} (h : n < 309) :
    powersOfTen[n]? = some (Float.ofScientific 1 false n) := by
  simp [powersOfTen, h]

theorem scale_succ (fuel : Nat) (x : Float) (exponent : Int) :
    scale (fuel + 1) x exponent =
      match powersOfTen[exponent.natAbs]? with
      | some power =>
          if 0 ≤ exponent then
            if (x * power).isInf then none else some (x * power)
          else some (x / power)
      | none =>
          if x == 0.0 then some x
          else if 0 ≤ exponent then none
          else scale fuel (x / greatestPower) (exponent + 308) :=
  rfl

theorem scale_of_neg {x : Float} {exponent : Int} (h : exponent.natAbs < 309)
    (hneg : exponent < 0) (fuel : Nat) :
    scale (fuel + 1) x exponent = some (x / Float.ofScientific 1 false exponent.natAbs) := by
  rw [scale_succ, getElem?_powersOfTen h]
  simp only [if_neg (Int.not_le.mpr hneg)]

theorem scale_of_nonneg {x : Float} {exponent : Int} (h : exponent.natAbs < 309)
    (hneg : 0 ≤ exponent) (fuel : Nat) :
    scale (fuel + 1) x exponent =
      if (x * Float.ofScientific 1 false exponent.natAbs).isInf then none
      else some (x * Float.ofScientific 1 false exponent.natAbs) := by
  rw [scale_succ, getElem?_powersOfTen h]
  simp only [if_pos hneg]

theorem getElem?_powersOfTen_of_le {n : Nat} (h : 309 ≤ n) : powersOfTen[n]? = none := by
  simp [powersOfTen, h]

/-- Downwards nothing is out of range. -/
theorem exists_scale_of_neg (fuel : Nat) (x : Float) {exponent : Int} (h : exponent < 0) :
    ∃ y, scale fuel x exponent = some y := by
  induction fuel generalizing x exponent with
  | zero => exact ⟨x, rfl⟩
  | succ fuel ih =>
      by_cases hpower : exponent.natAbs < 309
      · exact ⟨_, scale_of_neg hpower h fuel⟩
      · rw [scale_succ, getElem?_powersOfTen_of_le (by omega)]
        simp only [if_neg (not_le.mpr h)]
        split
        · exact ⟨x, rfl⟩
        · exact ih _ (by omega)

theorem scale_zero_of_le (fuel : Nat) {exponent : Int} (h : 309 ≤ exponent) :
    scale (fuel + 1) (Float.ofScientific 0 false 0) exponent =
      some (Float.ofScientific 0 false 0) := by
  have hzero : (Float.ofScientific 0 false 0 == 0.0) = true := rfl
  rw [scale_succ, getElem?_powersOfTen_of_le (by omega)]
  simp only [hzero, if_true]

theorem exists_scale {m : Nat} {exponent : Int} (h : (m * 10 ^ exponent : ℚ) ≤ safeLimit)
    (fuel : Nat) :
    ∃ y, scale (fuel + 1) (Float.ofScientific m false 0) exponent = some y := by
  by_cases hneg : exponent < 0
  · exact exists_scale_of_neg _ _ hneg
  obtain ⟨e, rfl⟩ := Int.eq_ofNat_of_zero_le (not_lt.mp hneg)
  rw [zpow_natCast] at h
  by_cases he : e ≤ 308
  · have hten : (10 : ℚ) ^ e ≤ safeLimit :=
      (pow_le_pow_right₀ (by norm_num) he).trans safeLimit_bounds.1
    have hfinite : (Float.ofScientific m false 0 * Float.ofScientific 1 false e).isFinite = true := by
      refine Decimal.isFinite_mul_power (le_max_left _ 1) (le_max_right _ _) he ?_
      rw [max_mul_of_nonneg _ _ (by positivity), one_mul]
      exact max_le h hten
    have habs : (e : Int).natAbs < 309 := by omega
    rw [scale_of_nonneg habs (Int.natCast_nonneg e), Int.natAbs_natCast,
      Decimal.isInf_of_isFinite hfinite]
    exact ⟨_, rfl⟩
  · rcases Nat.eq_zero_or_pos m with rfl | hm
    · exact ⟨_, scale_zero_of_le fuel (by omega)⟩
    · have hone : (1 : ℚ) ≤ m := by exact_mod_cast hm
      have hten : (10 : ℚ) ^ 309 ≤ 10 ^ e := pow_le_pow_right₀ (by norm_num) (by omega)
      have hlow : (10 : ℚ) ^ e ≤ m * 10 ^ e := le_mul_of_one_le_left (by positivity) hone
      exact absurd (hten.trans (hlow.trans h)) (not_le.mpr safeLimit_bounds.2)

/-- What scaling yields is finite. -/
theorem isFinite_of_scale {fuel : Nat} {x y : Float} {exponent : Int} (hx : x.isFinite = true)
    (h : scale fuel x exponent = some y) : y.isFinite = true := by
  induction fuel generalizing x exponent with
  | zero => cases h; exact hx
  | succ fuel ih =>
      by_cases hpower : exponent.natAbs < 309
      · have hfinite := (Decimal.within_power (Nat.lt_succ_iff.mp hpower)).finite
        by_cases hneg : exponent < 0
        · rw [scale_of_neg hpower hneg] at h
          cases h
          exact Decimal.isFinite_div hx hfinite
            (Decimal.two_le_size_power (by omega) (Nat.lt_succ_iff.mp hpower))
        · rw [scale_of_nonneg hpower (not_lt.mp hneg)] at h
          split at h
          · cases h
          next hinf =>
            cases h
            exact Decimal.isFinite_mul hx hfinite (Bool.not_eq_true _ ▸ hinf)
      · rw [scale_succ, getElem?_powersOfTen_of_le (by omega)] at h
        simp only at h
        split at h
        · cases h; exact hx
        split at h
        · cases h
        · refine ih ?_ h
          have he : 308 ≤ 308 := le_rfl
          exact Decimal.isFinite_div hx (Decimal.within_power he).finite
            (Decimal.two_le_size_power (by decide) he)

end Numeral

end Json

end CurlyTemplate
