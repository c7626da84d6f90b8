import CurlyTemplate.Proofs.Decimal.Rounding
import Mathlib.Data.Nat.Cast.Order.Field
import Mathlib.Tactic.FieldSimp

/-!
# Arithmetic of doubles

Bounds on the results of arithmetic. `Within x q` says that a double is finite and not
larger than `q`; products and decimals that are small enough are within bounds a little above
those of the exact results. Quotients by powers of ten are finite, and so are products that
are not infinite.
-/

namespace CurlyTemplate

namespace Decimal

open Float.Model (Format UnpackedFloat totalExponent)
open Float.Model.UnpackedFloat

theorem size_nonneg (u : UnpackedFloat) : 0 ≤ size u := by
  cases u with
  | finite s m e hm => exact mul_nonneg (Nat.cast_nonneg m) (by positivity)
  | _ => exact le_rfl

theorem raised_nonneg {q : ℚ} (h : 0 ≤ q) : 0 ≤ raised q := by
  unfold raised
  positivity

theorem raised_le_raised {p q : ℚ} (h : p ≤ q) : raised p ≤ raised q := by
  unfold raised
  gcongr

theorem le_raised {q : ℚ} (h : 0 ≤ q) : q ≤ raised q := by
  have hpart : 0 ≤ q * 2 ^ (-52 : ℤ) := mul_nonneg h (by positivity)
  have hleast : (0 : ℚ) < 2 ^ (-1074 : ℤ) := by positivity
  rw [raised, mul_one_add]
  linarith

/-! ### Before packing -/

theorem le_log2_mul {m n : Nat} (hm : 2 ^ 52 ≤ m) (hn : 0 < n) : 52 ≤ (m * n).log2 :=
  (Nat.le_log2 (Nat.mul_pos (by omega) hn).ne').mpr (hm.trans (Nat.le_mul_of_pos_right m hn))

theorem canonical_mul {u v : UnpackedFloat} (hu : Canonical u) (hv : Canonical v) :
    Canonical (UnpackedFloat.mul Format.binary64 u v) ∧
      size (UnpackedFloat.mul Format.binary64 u v) ≤ raised (size u * size v) := by
  have hzero : Canonical (.zero .positive) ∧ (0 : ℚ) ≤ raised (size u * size v) :=
    ⟨trivial, raised_nonneg (mul_nonneg (size_nonneg u) (size_nonneg v))⟩
  cases u with
  | infinity | notANumber => exact hu.elim
  | zero s =>
      cases v with
      | infinity | notANumber => exact hv.elim
      | zero | finite => exact hzero
  | finite s m e hm =>
      cases v with
      | infinity | notANumber => exact hv.elim
      | zero => exact hzero
      | finite t n f hn =>
          have hbits : 52 ≤ (m * n).log2 ∨ e + f ≤ -1074 := by
            rcases hu.2.2 with hm' | he
            · exact .inl (le_log2_mul hm' hn)
            rcases hv.2.2 with hn' | hf
            · exact .inl (Nat.mul_comm n m ▸ le_log2_mul hn' hm)
            · exact .inr (by omega)
          refine ⟨canonical_roundWithAccuracy _ .exact hbits,
            (size_roundWithAccuracy_le _ .exact hbits).trans (raised_le_raised (le_of_eq ?_))⟩
          rw [size, size, zpow_add₀ two_ne_zero]
          push_cast
          ring

theorem two_pow_le_shiftLeft {m : Nat} (hm : 0 < m) (k : Nat) : 2 ^ (m.log2 + k) ≤ m <<< k := by
  rw [Nat.shiftLeft_eq, Nat.pow_add]
  exact Nat.mul_le_mul_right _ (Nat.log2_self_le hm.ne')

theorem le_log2_of_two_pow_le {m k : Nat} (h : 2 ^ k ≤ m) : k ≤ m.log2 :=
  (Nat.le_log2 ((Nat.two_pow_pos k).trans_le h).ne').mpr h

/-- A quotient has its first 53 bits before it is rounded. -/
theorem le_log2_quotient {m n k : Nat} (hm : 0 < m) (hn : 0 < n)
    (hk : n.log2 + 53 ≤ m.log2 + k) : 52 ≤ (m <<< k / n).log2 := by
  refine le_log2_of_two_pow_le ((Nat.le_div_iff_mul_le hn).mpr ?_)
  calc 2 ^ 52 * n ≤ 2 ^ 52 * 2 ^ (n.log2 + 1) := Nat.mul_le_mul_left _ Nat.lt_log2_self.le
    _ = 2 ^ (n.log2 + 53) := by rw [← Nat.pow_add]; congr 1; omega
    _ ≤ 2 ^ (m.log2 + k) := Nat.pow_le_pow_right (by decide) hk
    _ ≤ m <<< k := two_pow_le_shiftLeft hm k

theorem quotient_le (m n k : Nat) :
    ((m <<< k / n : Nat) : ℚ) ≤ (m * 2 ^ (k : ℤ) / n : ℚ) := by
  refine Nat.cast_div_le.trans_eq ?_
  rw [Nat.shiftLeft_eq, zpow_natCast]
  push_cast
  rfl

theorem canonical_div {u v : UnpackedFloat} (hu : Canonical u) (hv : Canonical v)
    (hpos : 0 < size v) :
    Canonical (UnpackedFloat.div Format.binary64 u v) ∧
      size (UnpackedFloat.div Format.binary64 u v) ≤ raised (size u / size v) := by
  have hzero : Canonical (.zero .positive) ∧ (0 : ℚ) ≤ raised (size u / size v) :=
    ⟨trivial, raised_nonneg (div_nonneg (size_nonneg u) (size_nonneg v))⟩
  cases v with
  | infinity | notANumber => exact hv.elim
  | zero => exact absurd hpos (lt_irrefl 0)
  | finite t n f hn =>
      cases u with
      | infinity | notANumber => exact hu.elim
      | zero => exact hzero
      | finite s m e hm =>
          have htarget : Format.binary64.targetExponent (totalExponent m e - totalExponent n f) =
              max ((m.log2 : Int) + e - (n.log2 + f) - 53) (-1074) := by
            simp only [Format.targetExponent, totalExponent, Format.mantissaBits, Format.minExponent]
            norm_num
            omega
          rw [UnpackedFloat.div, divCore, htarget]
          generalize htake : min (e - f) (max ((m.log2 : Int) + e - (n.log2 + f) - 53) (-1074)) = g
          have hshift : ((e - f - g).toNat : Int) = e - f - g := by omega
          have hbits : 52 ≤ (m <<< (e - f - g).toNat / n).log2 ∨ g ≤ -1074 := by
            by_cases hg : g ≤ -1074
            · exact .inr hg
            · exact .inl (le_log2_quotient hm hn (by omega))
          refine ⟨canonical_roundWithAccuracy _ _ hbits,
            (size_roundWithAccuracy_le _ _ hbits).trans (raised_le_raised ?_)⟩
          have hquotient := quotient_le m n (e - f - g).toNat
          rw [hshift] at hquotient
          have hn' : (n : ℚ) ≠ 0 := by exact_mod_cast hn.ne'
          calc ((m <<< (e - f - g).toNat / n : Nat) : ℚ) * 2 ^ g
              ≤ m * 2 ^ (e - f - g) / n * 2 ^ g := by gcongr
            _ = m * 2 ^ e / (n * 2 ^ f) := by
                rw [zpow_sub₀ two_ne_zero, zpow_sub₀ two_ne_zero]
                field_simp

theorem canonical_neg {u : UnpackedFloat} (h : Canonical u) :
    Canonical u.neg ∧ size u.neg = size u := by
  cases u with
  | infinity | notANumber => exact h.elim
  | zero => exact ⟨trivial, rfl⟩
  | finite => exact ⟨h, rfl⟩

theorem canonical_normalize (n : Nat) :
    Canonical (UnpackedFloat.normalize Format.binary64 n 0 .positive) ∧
      size (UnpackedFloat.normalize Format.binary64 n 0 .positive) ≤ raised n := by
  rcases Nat.eq_zero_or_pos n with rfl | hn
  · exact ⟨trivial, raised_nonneg (Nat.cast_nonneg _)⟩
  · have hcompare : compare (n : Int) 0 = .gt := by
      rw [Int.compare_eq_gt]
      omega
    have htarget : Format.binary64.targetExponent (totalExponent n 0) = (n.log2 : Int) - 52 := by
      simp only [Format.targetExponent, totalExponent, Format.mantissaBits, Format.minExponent]
      norm_num
      omega
    simp only [UnpackedFloat.normalize, hcompare, Int.toNat_natCast]
    rw [UnpackedFloat.round, htarget, decreaseExponent]
    generalize hshift : (0 - ((n.log2 : Int) - 52)).toNat = k
    have hbits : 52 ≤ (n <<< k).log2 :=
      le_trans (by omega) (le_log2_of_two_pow_le (two_pow_le_shiftLeft hn k))
    refine ⟨canonical_roundWithAccuracy _ .exact (.inl hbits),
      (size_roundWithAccuracy_le _ .exact (.inl hbits)).trans (raised_le_raised (le_of_eq ?_))⟩
    rw [Nat.shiftLeft_eq, zero_sub, zpow_neg, zpow_natCast]
    push_cast
    field_simp

/-! ### Doubles -/

/-- A finite double of a size that does not exceed `q`. -/
structure Within (x : Float) (q : ℚ) : Prop where
  finite : x.isFinite = true
  le : size x.toModel.unpack ≤ q

theorem Within.mono {x : Float} {p q : ℚ} (h : Within x p) (hle : p ≤ q) : Within x q :=
  ⟨h.finite, h.le.trans hle⟩

theorem Within.canonical {x : Float} {q : ℚ} (h : Within x q) : Canonical x.toModel.unpack :=
  canonical_unpack h.finite

theorem within_of_isFinite {x : Float} (h : x.isFinite = true) : Within x (2 ^ (1024 : ℤ)) :=
  ⟨h, (size_unpack_lt h).le⟩

theorem within_pack {u : UnpackedFloat} {q : ℚ} (h : Canonical u) (hle : size u ≤ q)
    (hlt : q < 2 ^ (1024 : ℤ)) : Within (.ofModel (.pack u)) q := by
  obtain ⟨hfinite, hsize⟩ := unpack_pack h (hle.trans_lt hlt)
  exact ⟨hfinite, hsize.trans_le hle⟩

/-- A product that is not too large. -/
theorem Within.mul {x y : Float} {p q : ℚ} (hx : Within x p) (hy : Within y q)
    (hlt : raised (p * q) < 2 ^ (1024 : ℤ)) : Within (x * y) (raised (p * q)) := by
  obtain ⟨hcanonical, hsize⟩ := canonical_mul hx.canonical hy.canonical
  have hp : 0 ≤ p := (size_nonneg _).trans hx.le
  exact within_pack hcanonical
    (hsize.trans (raised_le_raised (mul_le_mul hx.le hy.le (size_nonneg _) hp))) hlt

theorem isInf_of_isFinite {x : Float} (h : x.isFinite = true) : x.isInf = false := by
  have hcases (u : Float.Model.UnpackedFloat) (h : u.isFinite = true) : u.isInf = false := by
    cases u <;> first | rfl | cases h
  exact hcases _ h

theorem isFinite_mul {x y : Float} (hx : x.isFinite = true) (hy : y.isFinite = true)
    (hinf : (x * y).isInf = false) : (x * y).isFinite = true :=
  isFinite_unpack_pack (canonical_mul (canonical_unpack hx) (canonical_unpack hy)).1 hinf

/-- A quotient by two or more. -/
theorem isFinite_div {x y : Float} (hx : x.isFinite = true) (hy : y.isFinite = true)
    (htwo : 2 ≤ size y.toModel.unpack) : (x / y).isFinite = true := by
  obtain ⟨hcanonical, hsize⟩ :=
    canonical_div (canonical_unpack hx) (canonical_unpack hy) (two_pos.trans_le htwo)
  have hhalf : size x.toModel.unpack / size y.toModel.unpack ≤ 2 ^ (1024 : ℤ) / 2 :=
    div_le_div₀ (by positivity) (within_of_isFinite hx).le two_pos htwo
  have hlt : raised (2 ^ (1024 : ℤ) / 2) < 2 ^ (1024 : ℤ) := by decide +kernel
  exact (within_pack hcanonical (hsize.trans (raised_le_raised hhalf)) hlt).finite

theorem isFinite_neg {x : Float} (h : x.isFinite = true) : (-x).isFinite = true := by
  obtain ⟨hcanonical, hsize⟩ := canonical_neg (canonical_unpack h)
  exact (unpack_pack hcanonical (hsize.trans_lt (size_unpack_lt h))).1

theorem within_ofNat {n : Nat} (hlt : raised n < 2 ^ (1024 : ℤ)) :
    Within (.ofModel (.ofNat n)) (raised n) :=
  within_pack (canonical_normalize n).1 (canonical_normalize n).2 hlt

/-! ### Decimals -/

theorem exactPowers : ∀ i : Fin Float.exactlyRepresentablePowersOfTen.size,
    Float.exactlyRepresentablePowersOfTen[i].isFinite = true ∧
      size Float.exactlyRepresentablePowersOfTen[i].toModel.unpack ≤ 10 ^ i.val := by
  decide +kernel

theorem within_exactPower {e : Nat} (h : e < Float.exactlyRepresentablePowersOfTen.size) :
    Within Float.exactlyRepresentablePowersOfTen[e] (10 ^ e) :=
  ⟨(exactPowers ⟨e, h⟩).1, (exactPowers ⟨e, h⟩).2⟩

/-- `m * 10 ^ e` before it is packed, where it is not the product of two exact doubles. -/
def scaled (m e : Nat) : UnpackedFloat :=
  roundWithAccuracy Format.binary64 .positive (m <<< 53 * 10 ^ e) (-53) .exact

theorem ofScientific_eq {m e : Nat} (hm : 0 < m) (hslow : ¬(m < 2 ^ 53 ∧ e ≤ 22)) (he : e ≤ 308) :
    Float.ofScientific m false e = .ofModel (.pack (scaled m e)) := by
  have hmodel : Float.ofScientific m false e =
      .ofModel (.pack (UnpackedFloat.ofScientific Format.binary64 m (e : Int))) := by
    rw [Float.ofScientific, dif_neg hslow]
    rfl
  have hrange : (2 ^ Format.binary64.exponentBits : Int) = 2048 := by decide
  rw [hmodel, UnpackedFloat.ofScientific, dif_neg hm.ne', if_neg, if_neg, if_pos]
  · rfl
  · exact Int.natCast_nonneg e
  · rw [hrange]
    omega
  · rw [hrange]
    omega

theorem le_log2_scaled {m : Nat} (hm : 0 < m) (e : Nat) :
    m.log2 + 53 ≤ (m <<< 53 * 10 ^ e).log2 :=
  le_log2_of_two_pow_le ((two_pow_le_shiftLeft hm 53).trans
    (Nat.le_mul_of_pos_right _ (Nat.pow_pos (by decide))))

theorem canonical_scaled {m : Nat} (hm : 0 < m) (e : Nat) :
    Canonical (scaled m e) ∧ size (scaled m e) ≤ raised (m * 10 ^ e) := by
  have hbits := le_log2_scaled hm e
  refine ⟨canonical_roundWithAccuracy _ .exact (.inl (by omega)),
    (size_roundWithAccuracy_le _ .exact (.inl (by omega))).trans (raised_le_raised (le_of_eq ?_))⟩
  rw [Nat.shiftLeft_eq, zpow_neg]
  push_cast
  norm_num
  ring

/-- A decimal is the product of two rounded factors, or less. -/
theorem within_ofScientific {m e : Nat} (he : e ≤ 308)
    (hlt : raised (raised m * 10 ^ e) < 2 ^ (1024 : ℤ)) :
    Within (Float.ofScientific m false e) (raised (raised m * 10 ^ e)) := by
  have hm : (0 : ℚ) ≤ raised m := raised_nonneg (Nat.cast_nonneg m)
  have hten : (1 : ℚ) ≤ 10 ^ e := one_le_pow₀ (by norm_num)
  by_cases hfast : m < 2 ^ 53 ∧ e ≤ 22
  · have hsize : m.toUInt64.toNat = m := Nat.mod_eq_of_lt (hfast.1.trans (by decide))
    have hof : m.toUInt64.toFloat = .ofModel (.ofNat m) := by
      rw [UInt64.toFloat, Float.Model.ofUInt64, UnpackedFloat.ofUInt64, hsize]
      rfl
    have hle : raised m ≤ raised (raised m * 10 ^ e) :=
      (le_mul_of_one_le_right hm hten).trans (le_raised (mul_nonneg hm (by positivity)))
    have hfirst : Within m.toUInt64.toFloat (raised m) := hof ▸ within_ofNat (hle.trans_lt hlt)
    rw [Float.ofScientific, dif_pos hfast]
    exact hfirst.mul (within_exactPower _) hlt
  rcases Nat.eq_zero_or_pos m with rfl | hpos
  · have hzero : Float.ofScientific 0 false e = .ofModel (.pack (.zero .positive)) := by
      rw [Float.ofScientific, dif_neg hfast]
      rfl
    rw [hzero]
    exact within_pack trivial (raised_nonneg (mul_nonneg hm (by positivity))) hlt
  · obtain ⟨hcanonical, hsize⟩ := canonical_scaled hpos e
    have hle : (m * 10 ^ e : ℚ) ≤ raised m * 10 ^ e := by
      have hm : (m : ℚ) ≤ raised m := le_raised (Nat.cast_nonneg m)
      gcongr
    rw [ofScientific_eq hpos hfast he]
    exact within_pack hcanonical (hsize.trans (raised_le_raised hle)) hlt

/-- What a power of ten that is a double does not exceed. -/
def powerBound (e : Nat) : ℚ := raised (raised 1 * 10 ^ e)

theorem powerBound_lt {e : Nat} (he : e ≤ 308) : powerBound e < 2 ^ (1024 : ℤ) := by
  have hle : (raised 1 * 10 ^ e : ℚ) ≤ raised 1 * 10 ^ 308 :=
    mul_le_mul_of_nonneg_left (pow_le_pow_right₀ (by norm_num) he) (raised_nonneg zero_le_one)
  exact (raised_le_raised hle).trans_lt (by decide +kernel)

theorem within_power {e : Nat} (he : e ≤ 308) :
    Within (Float.ofScientific 1 false e) (powerBound e) := by
  have h := within_ofScientific (m := 1) he
  rw [Nat.cast_one] at h
  exact h (powerBound_lt he)

theorem two_le_size_exactPower : ∀ e < 23, 0 < e →
    2 ≤ size (Float.ofScientific 1 false e).toModel.unpack := by
  decide +kernel

theorem two_le_size_power {e : Nat} (hpos : 0 < e) (he : e ≤ 308) :
    2 ≤ size (Float.ofScientific 1 false e).toModel.unpack := by
  by_cases hfast : e ≤ 22
  · exact two_le_size_exactPower e (by omega) hpos
  · obtain ⟨hcanonical, hsize⟩ := canonical_scaled one_pos e
    have hlt : size (scaled 1 e) < 2 ^ (1024 : ℤ) := by
      refine hsize.trans_lt ((raised_le_raised ?_).trans_lt (powerBound_lt he))
      rw [Nat.cast_one]
      exact mul_le_mul_of_nonneg_right (le_raised zero_le_one) (by positivity)
    have htwo : 54 ≤ (1 <<< 53 * 10 ^ e).log2 := by
      refine le_log2_of_two_pow_le ?_
      calc 2 ^ 54 = 1 <<< 53 * 2 := by decide
        _ ≤ 1 <<< 53 * 10 ^ e := Nat.mul_le_mul_left _
            (le_trans (by decide) (Nat.pow_le_pow_right (by decide) hpos))
    rw [ofScientific_eq one_pos (by omega) he]
    refine le_of_le_of_eq ?_ (unpack_pack hcanonical hlt).2.symm
    refine le_trans ?_ (two_pow_le_size_roundWithAccuracy _ .exact (.inl (by omega))
      (Nat.mul_pos (by decide) (Nat.pow_pos (by decide)))
      (by omega))
    calc (2 : ℚ) = 2 ^ (1 : ℤ) := (zpow_one 2).symm
      _ ≤ 2 ^ (((1 <<< 53 * 10 ^ e).log2 : Int) + -53) :=
          zpow_le_zpow_right₀ one_le_two (by omega)

/-! ### Products that make a decimal -/

/-- What rounding makes of a number of one or more is less than this times the number. -/
def growth : ℚ := 1 + 2 ^ (-51 : ℤ)

theorem raised_le_mul_growth {q : ℚ} (h : 1 ≤ q) : raised q ≤ q * growth := by
  have hleast : (2 : ℚ) ^ (-1074 : ℤ) ≤ 2 ^ (-52 : ℤ) := zpow_le_zpow_right₀ one_le_two (by decide)
  have hpart : (2 : ℚ) ^ (-52 : ℤ) ≤ q * 2 ^ (-52 : ℤ) := le_mul_of_one_le_left (by positivity) h
  have hdouble : (2 : ℚ) ^ (-51 : ℤ) = 2 * 2 ^ (-52 : ℤ) := by norm_num
  rw [raised, growth, hdouble]
  linarith

theorem one_le_growth : 1 ≤ growth := le_add_of_nonneg_right (by positivity)

/-- Decimals up to here are finite however often they are rounded on the way. -/
def safeLimit : ℚ := (2 ^ 53 - 32) * 2 ^ (971 : ℤ)

theorem safeLimit_eq : safeLimit = (2 ^ 55 - 128) * 2 ^ (969 : ℤ) := by
  rw [safeLimit, show (971 : ℤ) = 2 + 969 by decide, zpow_add₀ two_ne_zero]
  ring

theorem safeLimit_bounds : 10 ^ 308 ≤ safeLimit ∧ safeLimit < 10 ^ 309 := by decide +kernel

theorem raised_raised_le {q : ℚ} (h : 1 ≤ q) : raised (raised q) ≤ q * growth ^ 2 := by
  have hgrowth := one_le_growth
  have hle : 1 ≤ q * growth := one_le_mul_of_one_le_of_one_le h hgrowth
  calc raised (raised q) ≤ raised (q * growth) := raised_le_raised (raised_le_mul_growth h)
    _ ≤ q * growth * growth := raised_le_mul_growth hle
    _ = q * growth ^ 2 := by ring

theorem powerBound_le (e : Nat) : powerBound e ≤ 10 ^ e * growth ^ 2 := by
  have hgrowth := one_le_growth
  have hten : (1 : ℚ) ≤ 10 ^ e := one_le_pow₀ (by norm_num)
  have hfirst : raised 1 * 10 ^ e ≤ 10 ^ e * growth := by
    have := raised_le_mul_growth (le_refl 1)
    nlinarith
  calc powerBound e ≤ raised (10 ^ e * growth) := raised_le_raised hfirst
    _ ≤ 10 ^ e * growth * growth :=
        raised_le_mul_growth (one_le_mul_of_one_le_of_one_le hten hgrowth)
    _ = 10 ^ e * growth ^ 2 := by ring

theorem growth_lt : safeLimit * growth ^ 5 < 2 ^ (1024 : ℤ) := by decide +kernel

/-- A product that makes a decimal is finite. -/
theorem isFinite_mul_power {m e : Nat} {q : ℚ} (hm : m ≤ q) (hq : 1 ≤ q) (he : e ≤ 308)
    (hle : q * 10 ^ e ≤ safeLimit) :
    (Float.ofScientific m false 0 * Float.ofScientific 1 false e).isFinite = true := by
  have hgrowth := one_le_growth
  have hten : (1 : ℚ) ≤ 10 ^ e := one_le_pow₀ (by norm_num)
  have hlimit : q * growth ^ 2 * (10 ^ e * growth ^ 2 * growth) < 2 ^ (1024 : ℤ) := by
    calc q * growth ^ 2 * (10 ^ e * growth ^ 2 * growth) = q * 10 ^ e * growth ^ 5 := by ring
      _ ≤ safeLimit * growth ^ 5 := by gcongr
      _ < 2 ^ (1024 : ℤ) := growth_lt
  have hone : 1 ≤ q * growth ^ 2 := one_le_mul_of_one_le_of_one_le hq (one_le_pow₀ hgrowth)
  have hpower : 1 ≤ 10 ^ e * growth ^ 2 := one_le_mul_of_one_le_of_one_le hten (one_le_pow₀ hgrowth)
  have hgrown := one_le_mul_of_one_le_of_one_le hpower hgrowth
  have hbound : raised (raised (m : ℚ) * 10 ^ 0) ≤ q * growth ^ 2 := by
    rw [pow_zero, mul_one]
    exact (raised_le_raised (raised_le_raised hm)).trans (raised_raised_le hq)
  have hfirst : Within (Float.ofScientific m false 0) (q * growth ^ 2) :=
    (within_ofScientific (Nat.zero_le _) (hbound.trans_lt
      ((le_mul_of_one_le_right (by positivity) hgrown).trans_lt hlimit))).mono hbound
  have hsecond : Within (Float.ofScientific 1 false e) (10 ^ e * growth ^ 2) :=
    (within_power he).mono (powerBound_le e)
  exact (hfirst.mul hsecond ((raised_le_mul_growth
    (one_le_mul_of_one_le_of_one_le hone hpower)).trans_lt (by rwa [mul_assoc]))).finite

end Decimal

end CurlyTemplate
