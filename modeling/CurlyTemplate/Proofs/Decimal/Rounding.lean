import Mathlib
import CurlyTemplate.Decimal.Binary

/-!
# Rounding doubles

What rounding and packing do to the size of a double, the real number that it is without its
sign. When it is rounded it is raised by no more than one part in `2 ^ 52` or by the least
double (`size_roundWithAccuracy_le`), and packing keeps it while it is below `2 ^ 1024`
(`unpack_pack`). That is all that is needed to tell that a result is finite.
-/

namespace CurlyTemplate

namespace Decimal

open Float.Model (Format UnpackedFloat totalExponent)
open Float.Model.UnpackedFloat

/-- The absolute value of a finite double, and zero for others. -/
def size : UnpackedFloat → ℚ
  | .finite _ m e _ => m * 2 ^ e
  | _ => 0

/-- Finite, with as many bits as a double has. -/
def Canonical : UnpackedFloat → Prop
  | .zero _ => True
  | .finite _ m e _ => m < 2 ^ 53 ∧ -1074 ≤ e ∧ (2 ^ 52 ≤ m ∨ e = -1074)
  | _ => False

/-- The number of bits of `m * 2 ^ e` behind those that a double has. -/
def spareBits (m : Nat) (e : Int) : Nat := (max ((m.log2 : Int) + e - 52) (-1074) - e).toNat

theorem mantissa_shiftRight (em : ExtendedMantissa) (k : Nat) :
    (em >>> k).mantissa = em.mantissa / 2 ^ k := by
  induction k with
  | zero => exact (Nat.div_one _).symm
  | succ k ih =>
      have hstep : (em >>> (k + 1)).mantissa = (em >>> k).mantissa / 2 := rfl
      rw [hstep, ih, Nat.div_div_eq_div_mul, ← Nat.pow_succ]

theorem mantissa_ofMantissaAndAccuracy (m : Nat) (a : Accuracy) :
    (ExtendedMantissa.ofMantissaAndAccuracy m a).mantissa = m := by
  obtain _ | o := a
  · rfl
  · cases o <;> rfl

theorem roundedMantissa_bounds (em : ExtendedMantissa) :
    em.mantissa ≤ em.roundedMantissa ∧ em.roundedMantissa ≤ em.mantissa + 1 := by
  obtain ⟨m, r, s⟩ := em
  cases r <;> cases s <;>
    simp only [ExtendedMantissa.roundedMantissa, ExtendedMantissa.accuracy,
      Accuracy.roundToNearestEven] <;> omega

theorem shiftToTargetExponent_eq (m : Nat) (e : Int) (a : Accuracy) :
    shiftToTargetExponent Format.binary64 m e a =
      (ExtendedMantissa.ofMantissaAndAccuracy m a >>> spareBits m e, e + spareBits m e) := by
  have htarget : Format.binary64.targetExponent (totalExponent m e) =
      max ((m.log2 : Int) + e - 52) (-1074) := by
    simp only [Format.targetExponent, totalExponent, Format.mantissaBits, Format.minExponent]
    norm_num
    omega
  rw [shiftToTargetExponent, htarget]
  rfl

theorem div_spareBits_lt (m : Nat) (e : Int) : m / 2 ^ spareBits m e < 2 ^ 53 := by
  refine Nat.div_lt_of_lt_mul ?_
  rw [← Nat.pow_add]
  exact lt_of_lt_of_le Nat.lt_log2_self (Nat.pow_le_pow_right (by decide)
    (by unfold spareBits; omega))

theorem spareBits_of_lt {m : Nat} {e : Int} (hm : m < 2 ^ 53) (he : -1074 ≤ e) :
    spareBits m e = 0 := by
  have hlog : m.log2 ≤ 52 := by
    by_cases h : m = 0
    · simp [h]
    · exact Nat.lt_succ_iff.mp ((Nat.log2_lt h).mpr hm)
  unfold spareBits
  omega

theorem spareBits_two_pow {e : Int} (he : -1074 ≤ e) : spareBits (2 ^ 53) e = 1 := by
  rw [spareBits, Nat.log2_two_pow]
  omega

/-- Rounding keeps as many bits as fit, the last one perhaps raised. -/
theorem exists_roundWithAccuracy (s : Sign) {m : Nat} {e : Int} (a : Accuracy)
    (h : 52 ≤ m.log2 ∨ e ≤ -1074) :
    ∃ r, m / 2 ^ spareBits m e ≤ r ∧ r ≤ m / 2 ^ spareBits m e + 1 ∧
      size (roundWithAccuracy Format.binary64 s m e a) = r * 2 ^ (e + spareBits m e) ∧
      Canonical (roundWithAccuracy Format.binary64 s m e a) := by
  have hbounds := roundedMantissa_bounds (ExtendedMantissa.ofMantissaAndAccuracy m a >>> spareBits m e)
  have hlt := div_spareBits_lt m e
  have hnormal : 2 ^ 52 ≤ m / 2 ^ spareBits m e ∨ e + spareBits m e = -1074 := by
    by_cases hmin : (m.log2 : Int) + e - 52 ≤ -1074
    · exact .inr (by unfold spareBits; omega)
    · left
      have hbits : spareBits m e + 52 = m.log2 := by unfold spareBits; omega
      rw [Nat.le_div_iff_mul_le (Nat.two_pow_pos _), ← Nat.pow_add, Nat.add_comm, hbits]
      exact Nat.log2_self_le (by rintro rfl; simp at hbits)
  have hlow : -1074 ≤ e + spareBits m e := by unfold spareBits; omega
  rw [mantissa_shiftRight, mantissa_ofMantissaAndAccuracy] at hbounds
  rw [roundWithAccuracy, shiftToTargetExponent_eq]
  simp only [shiftToTargetExponent_eq, mantissa_shiftRight, mantissa_ofMantissaAndAccuracy]
  generalize (ExtendedMantissa.ofMantissaAndAccuracy m a >>> spareBits m e).roundedMantissa = r at *
  refine ⟨r, hbounds.1, hbounds.2, ?_⟩
  generalize e + (spareBits m e : Int) = e' at *
  by_cases hr : r < 2 ^ 53
  · simp only [spareBits_of_lt hr hlow, pow_zero, Nat.div_one, Nat.cast_zero, add_zero]
    split
    next hzero => simp [size, Canonical, hzero]
    next hpos => exact ⟨rfl, hr, hlow, hnormal.imp_left fun hn => hn.trans hbounds.1⟩
  · obtain rfl : r = 2 ^ 53 := by omega
    have hhalf : 2 ^ 53 / 2 ^ 1 = 2 ^ 52 := by decide
    have hpos : ¬ 2 ^ 52 = 0 := by decide
    simp only [spareBits_two_pow hlow, hhalf]
    rw [dif_neg hpos]
    refine ⟨?_, by decide, by omega, .inl le_rfl⟩
    rw [size, Nat.cast_one, zpow_add₀ two_ne_zero]
    push_cast
    ring

theorem canonical_roundWithAccuracy (s : Sign) {m : Nat} {e : Int} (a : Accuracy)
    (h : 52 ≤ m.log2 ∨ e ≤ -1074) : Canonical (roundWithAccuracy Format.binary64 s m e a) := by
  obtain ⟨-, -, -, -, hcanonical⟩ := exists_roundWithAccuracy s a h
  exact hcanonical

theorem two_pow_spareBits_le {m : Nat} {e : Int} (h : 52 ≤ m.log2 ∨ e ≤ -1074) :
    (2 : ℚ) ^ (e + spareBits m e) ≤ m * 2 ^ e * 2 ^ (-52 : ℤ) + 2 ^ (-1074 : ℤ) := by
  by_cases hmin : (m.log2 : Int) + e - 52 ≤ -1074
  · have hexp : e + spareBits m e = -1074 := by unfold spareBits; omega
    rw [hexp]
    exact le_add_of_nonneg_left (by positivity)
  · have hexp : e + spareBits m e = (m.log2 : Int) + e + -52 := by unfold spareBits; omega
    have hm : (2 : ℚ) ^ m.log2 ≤ m := by
      exact_mod_cast Nat.log2_self_le (by rintro rfl; simp at hmin h; omega)
    rw [hexp, zpow_add₀ two_ne_zero, zpow_add₀ two_ne_zero, zpow_natCast]
    exact le_add_of_le_of_nonneg (by gcongr) (by positivity)

/-- Rounding up adds one part in `2 ^ 52`, or the least double. -/
def raised (q : ℚ) : ℚ := q * (1 + 2 ^ (-52 : ℤ)) + 2 ^ (-1074 : ℤ)

theorem size_roundWithAccuracy_le (s : Sign) {m : Nat} {e : Int} (a : Accuracy)
    (h : 52 ≤ m.log2 ∨ e ≤ -1074) :
    size (roundWithAccuracy Format.binary64 s m e a) ≤ raised (m * 2 ^ e) := by
  obtain ⟨r, -, hr, hsize, -⟩ := exists_roundWithAccuracy s a h
  have hdiv : ((m / 2 ^ spareBits m e : Nat) : ℚ) * 2 ^ (e + spareBits m e) ≤ m * 2 ^ e := by
    have hmul : ((m / 2 ^ spareBits m e * 2 ^ spareBits m e : Nat) : ℚ) ≤ m := by
      exact_mod_cast Nat.div_mul_le_self m _
    push_cast at hmul
    rw [zpow_add₀ two_ne_zero, zpow_natCast]
    calc _ = ((m / 2 ^ spareBits m e : Nat) * 2 ^ spareBits m e : ℚ) * 2 ^ e := by ring
      _ ≤ m * 2 ^ e := by gcongr
  have hr : (r : ℚ) ≤ (m / 2 ^ spareBits m e : Nat) + 1 := by exact_mod_cast hr
  calc size (roundWithAccuracy Format.binary64 s m e a)
      = r * 2 ^ (e + spareBits m e) := hsize
    _ ≤ ((m / 2 ^ spareBits m e : Nat) + 1) * 2 ^ (e + spareBits m e) := by gcongr
    _ ≤ m * 2 ^ e + (m * 2 ^ e * 2 ^ (-52 : ℤ) + 2 ^ (-1074 : ℤ)) := by
        rw [add_one_mul]
        exact add_le_add hdiv (two_pow_spareBits_le h)
    _ = raised (m * 2 ^ e) := by rw [raised]; ring

/-- Rounding keeps the first bit. -/
theorem two_pow_le_size_roundWithAccuracy (s : Sign) {m : Nat} {e : Int} (a : Accuracy)
    (h : 52 ≤ m.log2 ∨ e ≤ -1074) (hm : 0 < m) (hlow : -1074 ≤ m.log2 + e) :
    (2 : ℚ) ^ (m.log2 + e) ≤ size (roundWithAccuracy Format.binary64 s m e a) := by
  obtain ⟨r, hr, -, hsize, -⟩ := exists_roundWithAccuracy s a h
  have hbits : spareBits m e ≤ m.log2 := by unfold spareBits; omega
  have hpow : 2 ^ (m.log2 - spareBits m e) ≤ r := by
    refine le_trans ?_ hr
    rw [Nat.le_div_iff_mul_le (Nat.two_pow_pos _), ← Nat.pow_add, Nat.sub_add_cancel hbits]
    exact Nat.log2_self_le hm.ne'
  have hexp : (m.log2 : Int) + e = (m.log2 - spareBits m e : Nat) + (e + spareBits m e) := by omega
  rw [hsize, hexp, zpow_add₀ two_ne_zero, zpow_natCast]
  gcongr
  exact_mod_cast hpow

/-! ### Packing -/

theorem toNat_implicit_append (m : BitVec 52) : (1#1 ++ m).toNat = 2 ^ 52 + m.toNat := by
  rw [BitVec.toNat_append]
  have hm := m.isLt
  rw [← Nat.shiftLeft_add_eq_or_of_lt hm]
  rfl

section Unpack

variable {b : BitVec Format.binary64.numBits}

theorem canonical_unpack (h : (unpack Format.binary64 b).isFinite = true) :
    Canonical (unpack Format.binary64 b) := by
  have hfraction : (unpackMantissa b).toNat < 2 ^ 52 := (unpackMantissa b).isLt
  have hmantissa : (Format.binary64.mantissaBitsWithoutImplicit : Int) = 52 := rfl
  have hfield : unpackExponent b ≠ 0#11 → 0 < (unpackExponent b).toNat := fun hne =>
    Nat.pos_of_ne_zero fun hzero => hne (BitVec.eq_of_toNat_eq hzero)
  have hbias : Format.binary64.exponentBias = 1023 := by decide
  rw [unpack] at h ⊢
  simp only [hbias, toNat_implicit_append] at h ⊢
  split at h
  · split at h <;> cases h
  next hones =>
    rw [if_neg hones]
    split
    next hzero =>
      have hfield : (unpackExponent b).toNat = 0 := congrArg BitVec.toNat hzero
      split
      · exact trivial
      · exact ⟨by omega, by omega, .inr (by omega)⟩
    next hzero =>
      have := hfield hzero
      exact ⟨by omega, by omega, .inl (by omega)⟩

theorem size_unpack_of_normal (hones : unpackExponent b ≠ -1#11)
    (hzero : unpackExponent b ≠ 0#11) :
    size (unpack Format.binary64 b) =
      (2 ^ 52 + (unpackMantissa b).toNat : Nat) * 2 ^ (((unpackExponent b).toNat : Int) - 1075) := by
  have hbias : Format.binary64.exponentBias = 1023 := by decide
  rw [unpack]
  simp only [if_neg hones, if_neg hzero, size, toNat_implicit_append, hbias]
  rfl

theorem size_unpack_of_subnormal (hzero : unpackExponent b = 0#11) :
    size (unpack Format.binary64 b) = (unpackMantissa b).toNat * 2 ^ (-1074 : Int) := by
  have hbias : Format.binary64.exponentBias = 1023 := by decide
  rw [unpack]
  simp only [hzero]
  rw [if_neg (by decide)]
  simp only [if_true]
  split
  next h => simp [size, h]
  next h => simp [size, hbias]

end Unpack

theorem toNat_biased {e : Int} {field : Nat} (h : (field : Int) = e + 1075) :
    (e + (Format.binary64.exponentBias : Int) +
      (Format.binary64.mantissaBitsWithoutImplicit : Int)).toNat = field := by
  have hbias : Format.binary64.exponentBias = 1023 := by decide
  have hmantissa : (Format.binary64.mantissaBitsWithoutImplicit : Int) = 52 := rfl
  rw [hbias, hmantissa]
  omega

theorem exists_field {e : Int} (h : -1074 ≤ e) : ∃ field : Nat, (field : Int) = e + 1075 :=
  ⟨(e + 1075).toNat, by omega⟩

theorem two_pow_exponentBits : 2 ^ Format.binary64.exponentBits = 2048 := by decide

theorem unpack_pack_of_normal (s : Sign) {m : Nat} {e : Int} (hm : 0 < m) (hbits : m < 2 ^ 53)
    (hnormal : 2 ^ 52 ≤ m) (hlow : -1074 ≤ e) (hhigh : e < 972) :
    (unpack Format.binary64 (pack Format.binary64 (.finite s m e hm))).isFinite = true ∧
      size (unpack Format.binary64 (pack Format.binary64 (.finite s m e hm))) =
        m * 2 ^ e := by
  obtain ⟨field, hfield⟩ := exists_field hlow
  have hsmall : ¬2 ^ Format.binary64.exponentBits ≤ field + 1 := by
    rw [two_pow_exponentBits]
    omega
  have hlog : m.log2 + 1 = Format.binary64.mantissaBits := by
    have hlow := (Nat.le_log2 hm.ne').mpr hnormal
    have hhigh := (Nat.log2_lt hm.ne').mpr hbits
    have hwidth : Format.binary64.mantissaBits = 53 := by decide
    omega
  have hvec : (BitVec.ofNat 11 field).toNat = field := by
    rw [BitVec.toNat_ofNat, Nat.mod_eq_of_lt (by omega)]
  have hones : BitVec.ofNat 11 field ≠ -1#11 := fun heq => by
    have hall : (BitVec.ofNat 11 field).toNat = 2047 := congrArg BitVec.toNat heq
    omega
  have hzero : BitVec.ofNat 11 field ≠ 0#11 := fun heq => by
    have hnone : (BitVec.ofNat 11 field).toNat = 0 := congrArg BitVec.toNat heq
    omega
  have hmantissa : (BitVec.ofNat 52 m).toNat = m % 2 ^ 52 := BitVec.toNat_ofNat m 52
  rw [pack]
  simp only [toNat_biased hfield, if_neg hsmall, if_pos hlog]
  refine ⟨?_, ?_⟩
  · rw [unpack]
    simp only [unpackExponent_packComponents, unpackMantissa_packComponents, if_neg hones,
      if_neg hzero]
    rfl
  · rw [size_unpack_of_normal (by simpa using hones) (by simpa using hzero)]
    simp only [unpackExponent_packComponents, unpackMantissa_packComponents, hvec, hmantissa]
    rw [hfield]
    congr 2
    all_goals omega

theorem unpack_pack_of_subnormal (s : Sign) {m : Nat} (hm : 0 < m) (hsub : m < 2 ^ 52) :
    (unpack Format.binary64 (pack Format.binary64 (.finite s m (-1074) hm))).isFinite = true ∧
      size (unpack Format.binary64 (pack Format.binary64 (.finite s m (-1074) hm))) =
        m * 2 ^ (-1074 : ℤ) := by
  have hfield : ((1 : Nat) : Int) = -1074 + 1075 := by decide
  have hsmall : ¬2 ^ Format.binary64.exponentBits ≤ 1 + 1 := by decide
  have hlog : ¬m.log2 + 1 = Format.binary64.mantissaBits := by
    have hlow := (Nat.log2_lt hm.ne').mpr hsub
    have hwidth : Format.binary64.mantissaBits = 53 := by decide
    omega
  have hones : ¬BitVec.ofNat Format.binary64.exponentBits 0 = -1#11 := by decide
  have hmantissa : (BitVec.ofNat 52 m).toNat = m % 2 ^ 52 := BitVec.toNat_ofNat m 52
  rw [pack]
  simp only [toNat_biased hfield, if_neg hsmall, if_neg hlog]
  refine ⟨?_, ?_⟩
  · rw [unpack]
    simp only [unpackExponent_packComponents, unpackMantissa_packComponents, if_neg hones,
      if_true]
    split <;> rfl
  · rw [size_unpack_of_subnormal (by simp)]
    simp only [unpackMantissa_packComponents, hmantissa]
    rw [Nat.mod_eq_of_lt hsub]

theorem isInf_unpack_pack (s : Sign) {m : Nat} {e : Int} (hm : 0 < m) (h : 972 ≤ e) :
    (unpack Format.binary64 (pack Format.binary64 (.finite s m e hm))).isInf = true := by
  obtain ⟨field, hfield⟩ := exists_field (e := e) (by omega)
  have hlarge : 2 ^ Format.binary64.exponentBits ≤ field + 1 := by
    rw [two_pow_exponentBits]
    omega
  rw [pack]
  simp only [toNat_biased hfield, if_pos hlarge]
  rw [packedInfinity, unpack]
  simp only [unpackExponent_packComponents, unpackMantissa_packComponents]
  rfl

theorem unpack_pack_zero (s : Sign) :
    (unpack Format.binary64 (pack Format.binary64 (.zero s))).isFinite = true ∧
      size (unpack Format.binary64 (pack Format.binary64 (.zero s))) = 0 := by
  rw [pack, packedZero]
  refine ⟨?_, ?_⟩
  · rw [unpack]
    simp only [unpackExponent_packComponents, unpackMantissa_packComponents]
    rfl
  · rw [size_unpack_of_subnormal (by simp)]
    simp

/-- Packing a double keeps its size if its exponent is in range. -/
theorem unpack_pack_of_lt {s : Sign} {m : Nat} {e : Int} {hm : 0 < m}
    (h : Canonical (.finite s m e hm)) (hhigh : e < 972) :
    (unpack Format.binary64 (pack Format.binary64 (.finite s m e hm))).isFinite = true ∧
      size (unpack Format.binary64 (pack Format.binary64 (.finite s m e hm))) =
        m * 2 ^ e := by
  obtain ⟨hbits, hlow, hnormal⟩ := h
  by_cases hn : 2 ^ 52 ≤ m
  · exact unpack_pack_of_normal s hm hbits hn hlow hhigh
  · obtain rfl := hnormal.resolve_left hn
    exact unpack_pack_of_subnormal s hm (not_le.mp hn)

theorem lt_of_size_lt {s : Sign} {m : Nat} {e : Int} {hm : 0 < m}
    (h : Canonical (.finite s m e hm)) (hlt : size (.finite s m e hm) < 2 ^ (1024 : ℤ)) :
    e < 972 := by
  obtain ⟨-, -, hnormal⟩ := h
  by_contra hhigh
  have hm : (2 : ℚ) ^ 52 ≤ m := by exact_mod_cast hnormal.resolve_right (by omega)
  refine absurd hlt (not_lt.mpr ?_)
  calc (2 : ℚ) ^ (52 + 972 : ℤ) = (2 : ℚ) ^ 52 * (2 : ℚ) ^ (972 : ℤ) :=
        zpow_add₀ two_ne_zero 52 972
    _ ≤ (m : ℚ) * (2 : ℚ) ^ e := mul_le_mul hm (zpow_le_zpow_right₀ one_le_two (by omega))
        (by positivity) (by positivity)

/-- Packing a double that is not too large keeps its size. -/
theorem unpack_pack {u : UnpackedFloat} (h : Canonical u) (hlt : size u < 2 ^ (1024 : ℤ)) :
    (unpack Format.binary64 (pack Format.binary64 u)).isFinite = true ∧
      size (unpack Format.binary64 (pack Format.binary64 u)) = size u := by
  cases u with
  | infinity | notANumber => exact h.elim
  | zero s => exact unpack_pack_zero s
  | finite s m e hm => exact unpack_pack_of_lt h (lt_of_size_lt h hlt)

/-- What is packed is finite or infinite, and a number in any case. -/
theorem isFinite_unpack_pack {u : UnpackedFloat} (h : Canonical u)
    (hinf : (unpack Format.binary64 (pack Format.binary64 u)).isInf = false) :
    (unpack Format.binary64 (pack Format.binary64 u)).isFinite = true := by
  cases u with
  | infinity | notANumber => exact h.elim
  | zero s => exact (unpack_pack_zero s).1
  | finite s m e hm =>
      by_cases hhigh : e < 972
      · exact (unpack_pack_of_lt h hhigh).1
      · rw [isInf_unpack_pack s hm (not_lt.mp hhigh)] at hinf
        cases hinf

theorem toNat_unpackExponent_lt {b : BitVec Format.binary64.numBits}
    (h : (unpack Format.binary64 b).isFinite = true) : (unpackExponent b).toNat < 2047 := by
  have hlt : (unpackExponent b).toNat < 2048 := (unpackExponent b).isLt
  have hne : (unpackExponent b).toNat ≠ 2047 := fun heq => by
    have hones : unpackExponent b = -1#11 := BitVec.eq_of_toNat_eq heq
    rw [unpack] at h
    simp only [hones, if_true] at h
    split at h <;> cases h
  omega

/-- Finite doubles lie below `2 ^ 1024`. -/
theorem size_unpack_lt {b : BitVec Format.binary64.numBits}
    (h : (unpack Format.binary64 b).isFinite = true) :
    size (unpack Format.binary64 b) < 2 ^ (1024 : ℤ) := by
  have hfield := toNat_unpackExponent_lt h
  have hones : unpackExponent b ≠ -1#11 := fun hones => by
    have heq : (unpackExponent b).toNat = 2047 := congrArg BitVec.toNat hones
    omega
  have hmantissa : (unpackMantissa b).toNat < 2 ^ 52 := (unpackMantissa b).isLt
  have hsplit : (2 : ℚ) ^ (1024 : ℤ) = (2 : ℚ) ^ 53 * 2 ^ (971 : ℤ) := zpow_add₀ two_ne_zero 53 971
  by_cases hzero : unpackExponent b = 0#11
  · rw [size_unpack_of_subnormal hzero, hsplit]
    have hlt : ((unpackMantissa b).toNat : ℚ) < 2 ^ 53 := by
      exact_mod_cast hmantissa.trans (by decide)
    exact mul_lt_mul hlt (zpow_le_zpow_right₀ one_le_two (by decide)) (by positivity)
      (by positivity)
  · rw [size_unpack_of_normal hones hzero, hsplit]
    have hlt : ((2 ^ 52 + (unpackMantissa b).toNat : Nat) : ℚ) < 2 ^ 53 := by
      have hlt : 2 ^ 52 + (unpackMantissa b).toNat < 2 ^ 53 := by omega
      exact_mod_cast hlt
    exact mul_lt_mul hlt (zpow_le_zpow_right₀ one_le_two (by omega)) (by positivity)
      (by positivity)

end Decimal

end CurlyTemplate
