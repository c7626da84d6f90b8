import CurlyTemplate.Proofs.Decimal.Greatest

/-!
# Integral doubles

The number that a finite double is has the magnitude that its bits tell, with the sign of
its first bit (`value_toModel`). A magnitude is told to be an integer just when it is one
(`Binary.integer?_eq_some_iff`).
-/

namespace CurlyTemplate

namespace Decimal

open Float.Model (Format UnpackedFloat)
open Float.Model.UnpackedFloat

/-- The number that a double is, and zero for a double that is none. -/
def value : UnpackedFloat → ℚ
  | .finite s m e _ => s.apply m * 2 ^ e
  | _ => 0

section Fields

variable {b : BitVec Format.binary64.numBits}

theorem toNat_unpackMantissa (b : BitVec Format.binary64.numBits) :
    (unpackMantissa b).toNat = b.toNat % 2 ^ 52 := by
  simp [unpackMantissa, BitVec.extractLsb, BitVec.extractLsb']

theorem toNat_unpackSign (b : BitVec Format.binary64.numBits) :
    (unpackSign b).toNat = b.toNat / 2 ^ 63 % 2 := by
  simp [unpackSign, BitVec.extractLsb, BitVec.extractLsb', Nat.shiftRight_eq_div_pow]

theorem apply_ofBitVec (s : BitVec 1) (m : Nat) :
    ((Sign.ofBitVec s).apply m : ℚ) = (if s.toNat = 1 then -1 else 1) * m := by
  obtain rfl | rfl : s = 0#1 ∨ s = 1#1 := by decide +revert
  · simp [Sign.ofBitVec, Sign.apply]
  · simp [Sign.ofBitVec, Sign.apply]

theorem value_unpack_of_normal (hones : unpackExponent b ≠ -1#11)
    (hzero : unpackExponent b ≠ 0#11) :
    value (unpack Format.binary64 b) =
      (Sign.ofBitVec (unpackSign b)).apply (2 ^ 52 + (unpackMantissa b).toNat : Nat) *
        2 ^ (((unpackExponent b).toNat : Int) - 1075) := by
  have hbias : Format.binary64.exponentBias = 1023 := by decide
  rw [unpack]
  simp only [if_neg hones, if_neg hzero, value, toNat_implicit_append, hbias]
  rfl

theorem value_unpack_of_subnormal (hzero : unpackExponent b = 0#11) :
    value (unpack Format.binary64 b) =
      (Sign.ofBitVec (unpackSign b)).apply (unpackMantissa b).toNat * 2 ^ (-1074 : Int) := by
  have hbias : Format.binary64.exponentBias = 1023 := by decide
  have happly (s : Sign) : s.apply 0 = 0 := by cases s <;> rfl
  rw [unpack]
  simp only [hzero]
  rw [if_neg (by decide)]
  simp only [if_true]
  split
  next h => simp [value, h, happly]
  next h => simp [value, hbias]

end Fields

/-- The number that a finite double is, from its magnitude and its first bit. -/
theorem value_toModel {x : Float} (h : x.isFinite = true) :
    value x.toModel.unpack =
      (if x.toBits.toNat / 2 ^ 63 = 1 then -1 else 1) *
        ((Binary.ofFloat x).significand * 2 ^ (Binary.ofFloat x).exponent) := by
  obtain ⟨b, hbits, hmodel⟩ : ∃ b : BitVec Format.binary64.numBits,
      b.toNat = x.toBits.toNat ∧ x.toModel.unpack = unpack Format.binary64 b := ⟨_, rfl, rfl⟩
  have hfinite : x.toModel.unpack.isFinite = true := h
  rw [hmodel] at hfinite ⊢
  have hsign : (unpackSign b).toNat = x.toBits.toNat / 2 ^ 63 := by
    have hlt : x.toBits.toNat < 2 ^ 64 := x.toBits.toNat_lt
    rw [toNat_unpackSign, hbits]
    omega
  have hmantissa : (unpackMantissa b).toNat = x.toBits.toNat % 2 ^ 63 % 2 ^ 52 := by
    rw [toNat_unpackMantissa, hbits]
    omega
  have hfield : (unpackExponent b).toNat = x.toBits.toNat % 2 ^ 63 / 2 ^ 52 := by
    rw [toNat_unpackExponent, hbits]
    omega
  have hones : unpackExponent b ≠ -1#11 := fun heq => by
    have hlt := toNat_unpackExponent_lt hfinite
    rw [heq] at hlt
    exact absurd hlt (by decide)
  rw [← hsign, ← mul_assoc]
  by_cases hzero : unpackExponent b = 0#11
  · have hx : Binary.ofFloat x = ⟨x.toBits.toNat % 2 ^ 63 % 2 ^ 52, -1074, false⟩ :=
      if_pos (hfield.symm.trans (congrArg BitVec.toNat hzero))
    rw [hx, ← hmantissa, ← apply_ofBitVec]
    exact value_unpack_of_subnormal hzero
  · have hx : Binary.ofFloat x = ⟨2 ^ 52 + x.toBits.toNat % 2 ^ 63 % 2 ^ 52,
        ((x.toBits.toNat % 2 ^ 63 / 2 ^ 52 : Nat) : Int) - 1075, _⟩ :=
      if_neg fun heq => hzero (BitVec.eq_of_toNat_eq (hfield.trans heq))
    rw [hx, ← hmantissa, ← hfield, ← apply_ofBitVec]
    exact value_unpack_of_normal hones hzero

namespace Binary

theorem integer?_eq_some_iff {b : Binary} {n : Nat} :
    b.integer? = some n ↔ (b.significand * 2 ^ b.exponent : ℚ) = n := by
  have hpos : (0 : ℚ) < 2 ^ (-b.exponent).toNat := by positivity
  have hnat : (b.significand * 2 ^ b.exponent : ℚ) = n ↔
      b.significand * 2 ^ b.exponent.toNat = n * 2 ^ (-b.exponent).toNat := by
    rw [← mul_left_inj' hpos.ne', mul_assoc, ← pow_toNat_eq two_ne_zero]
    norm_cast
  rw [hnat]
  rcases Int.le_total 0 b.exponent with hexponent | hexponent
  · have hzero : (-b.exponent).toNat = 0 := by omega
    rw [integer?_of_nonneg hexponent, hzero, Nat.pow_zero, Nat.mul_one, Option.some_inj]
    rfl
  · have hzero : b.exponent.toNat = 0 := by omega
    have hscale : 0 < 2 ^ (-b.exponent).toNat := Nat.two_pow_pos _
    simp only [integer?, hzero, Nat.pow_eq, Nat.pow_zero, Nat.mul_one]
    split
    next hmod =>
      rw [Option.some_inj]
      exact Nat.div_eq_iff_eq_mul_left hscale (Nat.dvd_of_mod_eq_zero hmod)
    next hmod =>
      refine iff_of_false (Option.some_ne_none n).symm fun heq => hmod ?_
      rw [heq, Nat.mul_mod_left]

theorem exists_integer?_iff {b : Binary} {n : Int} :
    (∃ k, b.integer? = some k ∧ (k : Int) = n) ↔ (b.significand * 2 ^ b.exponent : ℚ) = n := by
  simp only [integer?_eq_some_iff]
  constructor
  · rintro ⟨k, hk, rfl⟩
    exact hk
  · intro h
    have hn : 0 ≤ n := by
      have hmagnitude : (0 : ℚ) ≤ n := h ▸ by positivity
      exact_mod_cast hmagnitude
    obtain ⟨k, rfl⟩ := Int.eq_ofNat_of_zero_le hn
    exact ⟨k, h, rfl⟩

end Binary

end Decimal

end CurlyTemplate
