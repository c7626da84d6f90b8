import CurlyTemplate.Proofs.Decimal.Arithmetic
import CurlyTemplate.Proofs.Decimal.Shortest

/-!
# The greatest doubles

The shortest decimal of a double lies below a limit up to which products are finite, unless
the double is one of the last few (`upperEnd_le_or_greatest`). For these the product that
their decimal is read as is finite too (`isFinite_greatest`).
-/

namespace CurlyTemplate

namespace Decimal

open Float.Model (Format)
open Float.Model.UnpackedFloat

theorem toNat_unpackExponent (b : BitVec Format.binary64.numBits) :
    (unpackExponent b).toNat = b.toNat / 2 ^ 52 % 2 ^ 11 := by
  simp [unpackExponent, BitVec.extractLsb, BitVec.extractLsb', Nat.shiftRight_eq_div_pow]

/-- The exponent field of a finite double is not the greatest. -/
theorem field_lt {x : Float} (h : x.isFinite = true) :
    x.toBits.toNat % 2 ^ 63 / 2 ^ 52 < 2047 := by
  have hlt := toNat_unpackExponent_lt h
  have hbits : x.toModel.toBits.toBitVec.toNat = x.toBits.toNat := rfl
  rw [toNat_unpackExponent] at hlt
  omega

/-- A finite double is subnormal or normal. -/
theorem ofFloat_cases {x : Float} (h : x.isFinite = true) :
    (∃ fraction < 2 ^ 52, Binary.ofFloat x = ⟨fraction, -1074, false⟩) ∨
      ∃ fraction < 2 ^ 52, ∃ field : Nat, field < 2047 ∧ Binary.ofFloat x =
        ⟨2 ^ 52 + fraction, (field : Int) - 1075, decide (fraction = 0 ∧ 1 < field)⟩ := by
  have hfield := field_lt h
  have hfraction : x.toBits.toNat % 2 ^ 63 % 2 ^ 52 < 2 ^ 52 := Nat.mod_lt _ (Nat.two_pow_pos 52)
  by_cases hzero : x.toBits.toNat % 2 ^ 63 / 2 ^ 52 = 0
  · exact .inl ⟨_, hfraction, if_pos hzero⟩
  · exact .inr ⟨_, hfraction, _, hfield, if_neg hzero⟩

theorem ofFloat_bounds {x : Float} (h : x.isFinite = true) :
    (Binary.ofFloat x).significand < 2 ^ 53 ∧ (Binary.ofFloat x).exponent ≤ 971 := by
  rcases ofFloat_cases h with ⟨fraction, hfraction, hx⟩ | ⟨fraction, hfraction, field, hfield, hx⟩
  · rw [hx]
    exact ⟨by simp only; omega, by simp only; omega⟩
  · rw [hx]
    exact ⟨by simp only; omega, by simp only; omega⟩

/-- The greatest doubles, counted downwards. -/
def greatest (i : Nat) : Binary := ⟨2 ^ 53 - 1 - i, 971, false⟩

theorem exists_greatest {x : Float} (h : x.isFinite = true)
    (hexponent : (Binary.ofFloat x).exponent = 971)
    (hlow : 2 ^ 53 - 32 ≤ (Binary.ofFloat x).significand) :
    ∃ i < 32, Binary.ofFloat x = greatest i := by
  rcases ofFloat_cases h with ⟨fraction, hfraction, hx⟩ | ⟨fraction, hfraction, field, hfield, hx⟩
  · rw [hx] at hexponent
    cases hexponent
  · rw [hx] at hexponent hlow ⊢
    simp only at hexponent hlow
    have hnarrow : decide (fraction = 0 ∧ 1 < field) = false :=
      decide_eq_false fun hzero => by omega
    have hsignificand : 2 ^ 53 - 1 - (2 ^ 53 - 1 - (2 ^ 52 + fraction)) = 2 ^ 52 + fraction := by
      omega
    refine ⟨2 ^ 53 - 1 - (2 ^ 52 + fraction), by omega, ?_⟩
    rw [greatest, hsignificand, hexponent, hnarrow]

theorem isFinite_greatest : ∀ i < 32, 16 ≤ (shortest .toEven (greatest i)).exponent ∧
    (shortest .toEven (greatest i)).exponent ≤ 308 ∧ (shortest .toEven (greatest i)).digits < 2 ^ 64 ∧
    (Float.ofScientific (shortest .toEven (greatest i)).digits false 0 *
      Float.ofScientific 1 false (shortest .toEven (greatest i)).exponent.toNat).isFinite = true := by
  decide +kernel

theorem upperEnd_le_safeLimit {b : Binary} (hsignificand : b.significand < 2 ^ 53)
    (hexponent : b.exponent ≤ 971) (h : b.exponent = 971 → b.significand < 2 ^ 53 - 32) :
    b.upperEnd ≤ safeLimit := by
  unfold Binary.upperEnd
  by_cases htop : b.exponent = 971
  · have hlt : 4 * b.significand + 2 + 128 ≤ 2 ^ 55 := by
      have hlow := h htop
      omega
    have hle : (4 * b.significand + 2 + 128 : ℚ) ≤ 2 ^ 55 := by exact_mod_cast hlt
    rw [htop, safeLimit_eq]
    exact mul_le_mul_of_nonneg_right (le_sub_iff_add_le.mpr hle) (by positivity)
  · have hlt : 4 * b.significand + 2 ≤ 2 ^ 55 := by omega
    have hle : (4 * b.significand + 2 : ℚ) ≤ 2 ^ 55 := by exact_mod_cast hlt
    calc ((4 * b.significand + 2) * 2 ^ (b.exponent - 2) : ℚ)
        ≤ 2 ^ 55 * 2 ^ (968 : ℤ) :=
          mul_le_mul hle (zpow_le_zpow_right₀ one_le_two (by omega)) (by positivity) (by positivity)
      _ = 2 ^ 54 * 2 ^ (969 : ℤ) := by
          rw [show (969 : ℤ) = 1 + 968 by decide, zpow_add₀ two_ne_zero]
          ring
      _ ≤ safeLimit := by
          rw [safeLimit_eq]
          exact mul_le_mul_of_nonneg_right (by norm_num) (by positivity)

theorem upperEnd_le_or_greatest {x : Float} (hx : x.isFinite = true) :
    (Binary.ofFloat x).upperEnd ≤ safeLimit ∨ ∃ i < 32, Binary.ofFloat x = greatest i := by
  obtain ⟨hsignificand, hexponent⟩ := ofFloat_bounds hx
  by_cases h : (Binary.ofFloat x).exponent = 971 → (Binary.ofFloat x).significand < 2 ^ 53 - 32
  · exact .inl (upperEnd_le_safeLimit hsignificand hexponent h)
  · rw [Classical.not_imp, not_lt] at h
    exact .inr (exists_greatest hx h.1 h.2)

end Decimal

end CurlyTemplate
