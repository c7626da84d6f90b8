import CurlyTemplate.Json.Printer
import CurlyTemplate.Proofs.Decimal.Greatest
import CurlyTemplate.Proofs.Json.Numerals
import CurlyTemplate.Proofs.Json.Scaling

/-!
# Doubles in texts

The text of a finite double is a numeral of the decimal that was chosen for it, in whichever
of the forms, and that numeral is read as a double (`exists_read_doubleText`). It need not be
the same double, but it is never out of range. The doubles that are read are finite
(`Numeral.fits_of_value?`).
-/

namespace CurlyTemplate

namespace Json

theorem foldl_digits_append (n : Nat) (ds : List Nat) :
    ds.foldl (fun n d => 10 * n + d) n = n * 10 ^ ds.length + ofDigits ds := by
  induction ds generalizing n with
  | nil => simp [ofDigits]
  | cons d ds ih =>
      have hhead : ofDigits (d :: ds) = d * 10 ^ ds.length + ofDigits ds := by
        rw [ofDigits, List.foldl_cons, Nat.mul_zero, Nat.zero_add, ih]
      rw [List.foldl_cons, ih, hhead, List.length_cons, Nat.pow_succ]
      ring

theorem ofDigits_append (ds es : List Nat) :
    ofDigits (ds ++ es) = ofDigits ds * 10 ^ es.length + ofDigits es := by
  rw [ofDigits, List.foldl_append, ← ofDigits, foldl_digits_append]

theorem ofDigits_lt {ds : List Nat} (h : ∀ d ∈ ds, d < 10) : ofDigits ds < 10 ^ ds.length := by
  induction ds with
  | nil => simp [ofDigits]
  | cons d ds ih =>
      rw [List.forall_mem_cons] at h
      have hrest := ih h.2
      have hd : d * 10 ^ ds.length ≤ 9 * 10 ^ ds.length := Nat.mul_le_mul_right _ (by omega)
      have hsingle : ofDigits [d] = d := by simp [ofDigits]
      rw [← List.singleton_append, ofDigits_append, hsingle, List.length_append,
        List.length_singleton, Nat.pow_add]
      omega

theorem digitValue_lt {c : Char} (h : c.isDigit = true) : digitValue c < 10 := by
  simp only [Char.isDigit, Bool.and_eq_true, decide_eq_true_eq] at h
  have hhigh : c.toNat ≤ '9'.toNat := h.2
  have hnine : '9'.toNat = 57 := by decide
  have hzero : '0'.toNat = 48 := by decide
  unfold digitValue
  omega

theorem ofDigits_replicate_zero (k : Nat) : ofDigits (List.replicate k 0) = 0 := by
  induction k with
  | zero => rfl
  | succ k ih => rw [List.replicate_succ', ofDigits_append, ih, Nat.zero_mul]; rfl

namespace Numeral

open Decimal (safeLimit)

/-- Digits that do not fit are left over, and only those. -/
theorem absorb_mul_le (n : Nat) (ds : List Nat) :
    (absorb n ds).2.length ≤ ds.length ∧
      (absorb n ds).1 * 10 ^ (absorb n ds).2.length ≤ n * 10 ^ ds.length + ofDigits ds := by
  induction ds generalizing n with
  | nil => simp [absorb]
  | cons d ds ih =>
      rw [absorb]
      split
      · obtain ⟨hlength, hle⟩ := ih (10 * n + d)
        refine ⟨hlength.trans (Nat.le_succ _), hle.trans_eq ?_⟩
        rw [← foldl_digits_append, ← foldl_digits_append]
        rfl
      · exact ⟨le_rfl, Nat.le_add_right _ _⟩

/-- All digits of a numeral. -/
def digits (n : Numeral) : List Nat := n.whole ++ n.fraction.getD []

/-- The exponent of ten that the last digit has. -/
def unit (n : Numeral) : Int := n.exponent.getD 0 - (n.fraction.getD []).length

/-- What a numeral denotes, apart from the sign. -/
def size (n : Numeral) : ℚ := ofDigits n.digits * 10 ^ n.unit

/-- A numeral that denotes a double, with not too many digits before the point. -/
structure IsDouble (n : Numeral) : Prop where
  short : ofDigits n.whole < 2 ^ 64
  point : n.fraction ≠ none ∨ n.exponent ≠ none

/-- The value of a double: the digits that fit times a power of ten. -/
theorem value?_of_isDouble {n : Numeral} (h : n.IsDouble) :
    n.value? =
      (scale ((n.unit + (absorb (ofDigits n.whole) (n.fraction.getD [])).2.length).natAbs / 308 + 1)
        (Float.ofScientific (absorb (ofDigits n.whole) (n.fraction.getD [])).1 false 0)
        (n.unit + (absorb (ofDigits n.whole) (n.fraction.getD [])).2.length)).map
        fun x => .float (if n.negative then -x else x) := by
  obtain ⟨negative, whole, fraction, exponent⟩ := n
  obtain ⟨hshort, hpoint⟩ := h
  have hwhole : absorb 0 whole = (ofDigits whole, []) := absorb_eq hshort
  have hlength := (absorb_mul_le (ofDigits whole) (fraction.getD [])).1
  have hunit : (0 : Int) - ((fraction.getD []).length -
      (absorb (ofDigits whole) (fraction.getD [])).2.length : Nat) + exponent.getD 0 =
      exponent.getD 0 - (fraction.getD []).length +
        (absorb (ofDigits whole) (fraction.getD [])).2.length := by
    omega
  rw [unit, ← hunit, value?, hwhole]
  cases fraction with
  | some fraction => rfl
  | none =>
      cases exponent with
      | some exponent => rfl
      | none => simp at hpoint

/-- A double below the limit is not out of range. -/
theorem exists_value?_of_le {n : Numeral} (h : n.IsDouble) (hle : n.size ≤ safeLimit) :
    ∃ x, n.value? = some (.float x) := by
  have habsorb := (absorb_mul_le (ofDigits n.whole) (n.fraction.getD [])).2
  rw [← ofDigits_append, ← digits] at habsorb
  have hcast : ((absorb (ofDigits n.whole) (n.fraction.getD [])).1 *
      10 ^ (absorb (ofDigits n.whole) (n.fraction.getD [])).2.length : ℚ) ≤ ofDigits n.digits := by
    exact_mod_cast habsorb
  have hscale : ((absorb (ofDigits n.whole) (n.fraction.getD [])).1 *
      10 ^ (n.unit + (absorb (ofDigits n.whole) (n.fraction.getD [])).2.length) : ℚ) ≤ safeLimit := by
    refine le_trans ?_ hle
    rw [zpow_add₀ (by norm_num), zpow_natCast, size, mul_comm (10 ^ n.unit), ← mul_assoc]
    gcongr
  obtain ⟨y, hy⟩ := exists_scale hscale _
  exact ⟨_, by rw [value?_of_isDouble h, hy]; rfl⟩

/-- So is one with digits that fit and a product in range. -/
theorem exists_value?_of_isFinite {n : Numeral} {m e : Nat} (h : n.IsDouble) (hm : m < 2 ^ 64)
    (he : e ≤ 308) (hdigits : ofDigits n.digits = m) (hunit : n.unit = e)
    (hfinite : (Float.ofScientific m false 0 * Float.ofScientific 1 false e).isFinite = true) :
    ∃ x, n.value? = some (.float x) := by
  have habsorb : absorb (ofDigits n.whole) (n.fraction.getD []) = (m, []) := by
    rw [digits, ofDigits_append, ← foldl_digits_append] at hdigits
    rw [absorb_eq (by rwa [hdigits]), hdigits]
  rw [value?_of_isDouble h, habsorb, hunit, List.length_nil, Nat.cast_zero, add_zero,
    scale_of_nonneg (by omega) (Int.natCast_nonneg e), Int.natAbs_natCast,
    Decimal.isInf_of_isFinite hfinite]
  exact ⟨_, rfl⟩

/-! ### Scanning the parts -/

section Scan

variable {ds rest : List Char}

theorem takeDigits_digits_append (hds : ∀ c ∈ ds, c.isDigit = true)
    (hrest : ∀ c ∈ rest.head?, c.isDigit = false) :
    takeDigits (ds ++ rest) = (ds.map digitValue, rest) := by
  induction ds with
  | nil =>
      cases rest with
      | nil => rfl
      | cons c rest =>
          have hc : c.isDigit = false := hrest c rfl
          simp [takeDigits, digit?, hc]
  | cons c ds ih =>
      rw [List.forall_mem_cons] at hds
      simp only [List.cons_append, takeDigits, digit?, hds.1, if_true, ih hds.2]
      rfl

theorem digits1_digits_append (hne : ds ≠ []) (hds : ∀ c ∈ ds, c.isDigit = true)
    (hrest : ∀ c ∈ rest.head?, c.isDigit = false) :
    digits1 (ds ++ rest) = .ok (ds.map digitValue, rest) :=
  digits1_eq_ok_iff.mpr ⟨takeDigits_digits_append hds hrest, by simpa using hne⟩

/-- Digits that may stand in front of the point. -/
structure Leads (ds : List Char) : Prop where
  digits : ∀ c ∈ ds, c.isDigit = true
  nonempty : ds ≠ []
  zero : ds.length = 1 ∨ ds.head? ≠ some '0'

theorem leads_singleton {c : Char} (h : c.isDigit = true) : Leads [c] :=
  ⟨List.forall_mem_singleton.mpr h, List.cons_ne_nil _ _, .inl rfl⟩

theorem scanWhole_append_of_leads (h : Leads ds) (hrest : ∀ c ∈ rest.head?, c.isDigit = false) :
    scanWhole (ds ++ rest) = .ok (ds.map digitValue, rest) := by
  refine scanWhole_eq_ok_iff.mpr ⟨digits1_digits_append h.nonempty h.digits hrest, ?_⟩
  intro d more heq
  obtain ⟨c, ds, rfl, hc, hds⟩ := List.map_eq_cons_iff.mp heq
  rcases h.zero with hlength | hhead
  · rw [List.length_eq_one_iff] at hlength
    obtain ⟨_, hsingle⟩ := hlength
    cases hsingle
    cases hds
  · exact hhead (congrArg some (eq_zero_of_digitValue (h.digits c List.mem_cons_self) hc))

def pointText : Option (List Char) → List Char
  | none => []
  | some ds => '.' :: ds

def exponentText : Option Int → List Char
  | none => []
  | some e => 'e' :: (if e < 0 then '-' else '+') :: Decimal.numeral e.natAbs

theorem pointText_append_none (ds : List Char) :
    pointText (some ds) ++ exponentText none = '.' :: ds := List.append_nil _

theorem scanExponent_exponentText (exponent : Option Int) :
    scanExponent (exponentText exponent) = .ok (exponent, []) := by
  cases exponent with
  | none => rfl
  | some e =>
      have hdigits : digits1 (Decimal.numeral e.natAbs) =
          .ok ((Decimal.numeral e.natAbs).map digitValue, []) :=
        digits1_eq_ok_iff.mpr ⟨takeDigits_of_isDigit fun c hc => isDigit_of_mem_numeral hc,
          by simp [Decimal.numeral]⟩
      have he : ('e' = 'e' ∨ 'e' = 'E') := .inl rfl
      by_cases hneg : e < 0
      · have hvalue : -(e.natAbs : Int) = e := by omega
        simp only [exponentText, if_pos hneg, scanExponent, if_true, true_or, hdigits, ok_bind,
          ofDigits_numeral, hvalue]
        rfl
      · have hvalue : (e.natAbs : Int) = e := by omega
        simp only [exponentText, if_neg hneg, scanExponent, if_true, true_or, hdigits, ok_bind,
          ofDigits_numeral, hvalue]
        rfl

theorem scan_parts {sign whole : List Char} (fraction : Option (List Char)) (exponent : Option Int)
    (hsign : sign = [] ∨ sign = ['-']) (hwhole : Leads whole)
    (hfraction : ∀ ds ∈ fraction, ds ≠ [] ∧ ∀ c ∈ ds, c.isDigit = true) :
    ∃ negative, scan (sign ++ (whole ++ (pointText fraction ++ exponentText exponent))) =
      .ok (⟨negative, whole.map digitValue, fraction.map (·.map digitValue), exponent⟩, []) := by
  have hbehind : ∀ c ∈ (exponentText exponent).head?, c.isDigit = false ∧ c ≠ '.' := by
    cases exponent with
    | none => nofun
    | some e =>
        rintro _ ⟨rfl⟩
        decide
  have hpoint : ∀ c ∈ (pointText fraction ++ exponentText exponent).head?, c.isDigit = false := by
    cases fraction with
    | none => exact fun c hc => (hbehind c hc).1
    | some ds =>
        rintro _ ⟨rfl⟩
        decide
  have hread : scanFraction (pointText fraction ++ exponentText exponent) =
      .ok (fraction.map (·.map digitValue), exponentText exponent) := by
    cases fraction with
    | none =>
        cases htext : exponentText exponent with
        | nil => rfl
        | cons c text =>
            have hc := (hbehind c (by rw [htext]; rfl)).2
            simp [pointText, scanFraction, hc]
    | some ds =>
        obtain ⟨hne, hds⟩ := hfraction ds rfl
        simp only [pointText, List.cons_append, scanFraction,
          digits1_digits_append hne hds fun c hc => (hbehind c hc).1]
        rfl
  have hunsigned : unsigned (sign ++ (whole ++ (pointText fraction ++ exponentText exponent))) =
      whole ++ (pointText fraction ++ exponentText exponent) := by
    rcases hsign with rfl | rfl
    · obtain ⟨c, ds, rfl⟩ := List.exists_cons_of_ne_nil hwhole.nonempty
      refine unsigned_cons (fun hc => ?_) _
      have hdigit := hwhole.digits c List.mem_cons_self
      rw [hc] at hdigit
      cases hdigit
    · rfl
  refine ⟨_, scan_eq_ok_iff.mpr ⟨rfl, _, _, ?_, hread, scanExponent_exponentText exponent⟩⟩
  rw [hunsigned]
  exact scanWhole_append_of_leads hwhole hpoint

/-- A numeral in parts denotes the digits at the place of the last one. -/
theorem exists_scan_parts {sign whole : List Char} (fraction : Option (List Char))
    (exponent : Option Int) (hsign : sign = [] ∨ sign = ['-']) (hwhole : Leads whole)
    (hshort : whole.length ≤ 16)
    (hfraction : ∀ ds ∈ fraction, ds ≠ [] ∧ ∀ c ∈ ds, c.isDigit = true)
    (hpoint : fraction ≠ none ∨ exponent ≠ none) :
    ∃ n : Numeral,
      scan (sign ++ (whole ++ (pointText fraction ++ exponentText exponent))) = .ok (n, []) ∧
      n.IsDouble ∧ ofDigits n.digits = ofDigits ((whole ++ fraction.getD []).map digitValue) ∧
      n.unit = exponent.getD 0 - (fraction.getD []).length := by
  obtain ⟨negative, hscan⟩ := scan_parts fraction exponent hsign hwhole hfraction
  have hdigit (d) (hd : d ∈ whole.map digitValue) : d < 10 := by
    obtain ⟨c, hc, rfl⟩ := List.mem_map.mp hd
    exact digitValue_lt (hwhole.digits c hc)
  have hlt : ofDigits (whole.map digitValue) < 2 ^ 64 := by
    have hlt := ofDigits_lt hdigit
    rw [List.length_map] at hlt
    exact hlt.trans_le ((Nat.pow_le_pow_right (by decide) hshort).trans (by decide))
  refine ⟨_, hscan, ⟨hlt, hpoint.imp_left fun h => by simpa using h⟩, ?_, ?_⟩
  · cases fraction <;> simp [digits]
  · cases fraction <;> simp [unit]

end Scan

/-! ### The text of a double -/

section Layout

open Decimal (Digits numeral positionalForm scientificForm)

theorem leads_numeral (n : Nat) : Leads (numeral n) where
  digits _ hc := isDigit_of_mem_numeral hc
  nonempty := by simp [numeral]
  zero := by
    rcases Nat.eq_zero_or_pos n with rfl | hn
    · exact .inl rfl
    · exact .inr (head?_numeral hn)

theorem size_eq_value {n : Numeral} {d : Digits} (hdigits : ofDigits n.digits = d.digits)
    (hunit : n.unit = d.exponent) : n.size = d.value := by
  rw [size, hdigits, hunit, Digits.value]

section Point

variable {sign ds : List Char} {m : Nat}

theorem exists_scan_behind_zeros (hsign : sign = [] ∨ sign = ['-']) (hlead : Leads ds)
    (hvalue : ofDigits (ds.map digitValue) = m) (k : Nat) :
    ∃ n : Numeral, scan (sign ++ '0' :: '.' :: (List.replicate k '0' ++ ds)) = .ok (n, []) ∧
      n.IsDouble ∧ ofDigits n.digits = m ∧ n.unit = -(k + ds.length) := by
  have hfraction : ∀ c ∈ List.replicate k '0' ++ ds, c.isDigit = true := by
    intro c hc
    rcases List.mem_append.mp hc with hc | hc
    · rw [List.eq_of_mem_replicate hc]
      rfl
    · exact hlead.digits c hc
  obtain ⟨n, hscan, hdouble, hn, hunit⟩ := exists_scan_parts
    (some (List.replicate k '0' ++ ds)) none hsign (leads_singleton (c := '0') rfl) (by decide)
    (by rintro _ ⟨rfl⟩; exact ⟨by simp [hlead.nonempty], hfraction⟩) (.inl nofun)
  rw [pointText_append_none] at hscan
  refine ⟨n, hscan, hdouble, ?_, ?_⟩
  · have hzeros : ['0'] ++ (List.replicate k '0' ++ ds) = List.replicate (k + 1) '0' ++ ds := rfl
    have hdigit : digitValue '0' = 0 := rfl
    rw [hn, Option.getD_some, hzeros, List.map_append, List.map_replicate, ofDigits_append, hvalue,
      hdigit, ofDigits_replicate_zero, Nat.zero_mul, Nat.zero_add]
  · rw [hunit, Option.getD_none, Option.getD_some, List.length_append, List.length_replicate]
    omega

theorem exists_scan_before_zeros (hsign : sign = [] ∨ sign = ['-'])
    (hvalue : ofDigits (ds.map digitValue) = m) {k : Nat}
    (hlead : Leads (ds ++ List.replicate k '0')) (hshort : ds.length + k ≤ 16) :
    ∃ n : Numeral, scan (sign ++ (ds ++ List.replicate k '0' ++ ['.', '0'])) = .ok (n, []) ∧
      n.IsDouble ∧ ofDigits n.digits = m * 10 ^ k * 10 ∧ n.unit = -1 := by
  obtain ⟨n, hscan, hdouble, hn, hunit⟩ := exists_scan_parts (some ['0']) none
    hsign hlead (by rwa [List.length_append, List.length_replicate])
    (by rintro _ ⟨rfl⟩; exact ⟨by simp, List.forall_mem_singleton.mpr rfl⟩) (.inl nofun)
  rw [pointText_append_none] at hscan
  refine ⟨n, hscan, hdouble, ?_, hunit⟩
  have hdigit : digitValue '0' = 0 := rfl
  have hlast : ofDigits (['0'].map digitValue) = 0 := rfl
  rw [hn, Option.getD_some, List.map_append, List.map_append, List.map_replicate,
    ofDigits_append, ofDigits_append, hvalue, hdigit, ofDigits_replicate_zero, hlast]
  simp

theorem exists_scan_take_drop (hsign : sign = [] ∨ sign = ['-']) (hlead : Leads ds)
    (hvalue : ofDigits (ds.map digitValue) = m) {w : Nat} (hpos : 0 < w) (hshort : w ≤ 16)
    (hlong : w < ds.length) :
    ∃ n : Numeral, scan (sign ++ (ds.take w ++ '.' :: ds.drop w)) = .ok (n, []) ∧
      n.IsDouble ∧ ofDigits n.digits = m ∧ n.unit = w - ds.length := by
  have hwhole : Leads (ds.take w) := by
    refine ⟨fun c hc => hlead.digits c (List.mem_of_mem_take hc), ?_, .inr ?_⟩
    · rw [Ne, List.take_eq_nil_iff]
      exact not_or.mpr ⟨by omega, hlead.nonempty⟩
    · rw [List.head?_take, if_neg (by omega)]
      exact hlead.zero.resolve_left (by omega)
  have hfraction : ds.drop w ≠ [] ∧ ∀ c ∈ ds.drop w, c.isDigit = true := by
    refine ⟨?_, fun c hc => hlead.digits c (List.mem_of_mem_drop hc)⟩
    rw [Ne, List.drop_eq_nil_iff]
    omega
  obtain ⟨n, hscan, hdouble, hn, hunit⟩ := exists_scan_parts (some (ds.drop w)) none
    hsign hwhole ((List.length_take_le _ _).trans hshort)
    (by rintro _ ⟨rfl⟩; exact hfraction) (.inl nofun)
  rw [pointText_append_none] at hscan
  refine ⟨n, hscan, hdouble, ?_, ?_⟩
  · rw [hn, Option.getD_some, List.take_append_drop, hvalue]
  · rw [hunit, Option.getD_none, Option.getD_some, List.length_drop]
    omega

end Point

theorem leads_append_zeros {d : Digits} (hzero : d.digits = 0 → d.exponent = 0) {k : Nat}
    (hk : d.exponent = k) : Leads (numeral d.digits ++ List.replicate k '0') := by
  have hlead := leads_numeral d.digits
  by_cases hd : d.digits = 0
  · obtain rfl : k = 0 := by
      have := hzero hd
      omega
    rwa [List.replicate_zero, List.append_nil]
  · refine ⟨fun c hc => ?_, by simp [hlead.nonempty], .inr ?_⟩
    · rcases List.mem_append.mp hc with hc | hc
      · exact hlead.digits c hc
      · rw [List.eq_of_mem_replicate hc]
        rfl
    · rw [List.head?_append_of_ne_nil _ hlead.nonempty]
      exact head?_numeral (Nat.pos_of_ne_zero hd)

/-- With the point in its place, the text of a decimal denotes it. -/
theorem exists_scan_positionalForm {sign : List Char} (hsign : sign = [] ∨ sign = ['-'])
    {d : Digits} (hzero : d.digits = 0 → d.exponent = 0) {leading : Int}
    (hleading : leading = d.exponent + (numeral d.digits).length - 1) (hhigh : leading < 16) :
    ∃ n : Numeral,
      scan (sign ++ positionalForm true (numeral d.digits) leading) = .ok (n, []) ∧
      n.IsDouble ∧ n.size = d.value := by
  have hlead := leads_numeral d.digits
  have hvalue := ofDigits_numeral d.digits
  unfold positionalForm
  split
  next hneg =>
    obtain ⟨n, hscan, hdouble, hdigits, hunit⟩ :=
      exists_scan_behind_zeros hsign hlead hvalue (leading.natAbs - 1)
    exact ⟨n, hscan, hdouble, size_eq_value hdigits (by omega)⟩
  next hnonneg =>
    simp only
    split
    next hfits =>
      generalize hk : leading.toNat + 1 - (numeral d.digits).length = k
      have hexponent : d.exponent = k := by omega
      obtain ⟨n, hscan, hdouble, hdigits, hunit⟩ :=
        exists_scan_before_zeros hsign hvalue (leads_append_zeros hzero hexponent) (by omega)
      refine ⟨n, hscan, hdouble, ?_⟩
      rw [size, hdigits, hunit, Digits.value, hexponent, zpow_natCast, zpow_neg_one]
      push_cast
      exact mul_inv_cancel_right₀ (by norm_num) _
    next hlong =>
      obtain ⟨n, hscan, hdouble, hdigits, hunit⟩ :=
        exists_scan_take_drop (w := leading.toNat + 1) hsign hlead hvalue (by omega) (by omega)
          (by omega)
      exact ⟨n, hscan, hdouble, size_eq_value hdigits (by omega)⟩

/-- With an exponent, the text of a decimal has its digits. -/
theorem exists_scan_scientificForm {sign : List Char} (hsign : sign = [] ∨ sign = ['-'])
    {d : Digits} {leading : Int}
    (hleading : leading = d.exponent + (numeral d.digits).length - 1) :
    ∃ n : Numeral,
      scan (sign ++ scientificForm (numeral d.digits) leading) = .ok (n, []) ∧
      n.IsDouble ∧ ofDigits n.digits = d.digits ∧ n.unit = d.exponent := by
  have hlead := leads_numeral d.digits
  have hvalue := ofDigits_numeral d.digits
  generalize numeral d.digits = ds at *
  obtain ⟨first, ds, rfl⟩ := List.exists_cons_of_ne_nil hlead.nonempty
  have hdigits := List.forall_mem_cons.mp hlead.digits
  obtain ⟨fraction, hfraction, hform⟩ : ∃ fraction : Option (List Char),
      fraction.getD [] = ds ∧ (∀ ds ∈ fraction, ds ≠ []) ∧
        scientificForm (first :: ds) leading =
          [first] ++ (pointText fraction ++ exponentText (some leading)) := by
    cases ds with
    | nil => exact ⟨none, rfl, nofun, rfl⟩
    | cons second rest => exact ⟨some (second :: rest), rfl, by rintro _ ⟨rfl⟩; nofun, rfl⟩
  obtain ⟨n, hscan, hdouble, hn, hunit⟩ := exists_scan_parts fraction (some leading)
    hsign (leads_singleton hdigits.1) (by simp) (fun es hes => ⟨hform.1 es hes, by
      cases fraction with
      | none => cases hes
      | some fs =>
          cases hes
          rw [Option.getD_some] at hfraction
          exact hfraction ▸ hdigits.2⟩) (.inr nofun)
  refine ⟨n, by rw [hform.2]; exact hscan, hdouble, ?_, ?_⟩
  · rw [hn, hfraction, List.singleton_append, hvalue]
  · rw [hunit, hfraction, Option.getD_some]
    rw [List.length_cons] at hleading
    omega

end Layout

end Numeral

open Decimal (Binary Digits shortest numeral safeLimit)

/-- The decimal that a double is written as. -/
def chosen (x : Float) : Digits :=
  if (Binary.ofFloat x).significand = 0 then ⟨0, 0⟩ else shortest .toEven (Binary.ofFloat x)

theorem exponent_chosen {x : Float} (h : (chosen x).digits = 0) : (chosen x).exponent = 0 := by
  unfold chosen at h ⊢
  by_cases hb : (Binary.ofFloat x).significand = 0
  · rw [if_pos hb]
  · rw [if_neg hb] at h
    exact absurd h (Decimal.digits_shortest_pos .toEven (Nat.pos_of_ne_zero hb)).ne'

theorem value_chosen_le (x : Float) : (chosen x).value ≤ (Binary.ofFloat x).upperEnd := by
  unfold chosen
  split
  · rw [Digits.value, Nat.cast_zero, zero_mul]
    unfold Binary.upperEnd
    positivity
  · exact Decimal.value_shortest_le .toEven _

/-- The numeral of a double denotes the chosen decimal, digit by digit if it is large. -/
theorem exists_scan_doubleText {x : Float} (hx : x.isFinite = true) :
    ∃ n : Numeral, Numeral.scan (doubleText x) = .ok (n, []) ∧ n.IsDouble ∧
      n.size = (chosen x).value ∧ (16 ≤ (chosen x).exponent →
        ofDigits n.digits = (chosen x).digits ∧ n.unit = (chosen x).exponent) := by
  have htext : doubleText x = (if x.toBits.toNat / Nat.pow 2 63 = 1 then ['-'] else []) ++
      (let leading := (chosen x).exponent + (numeral (chosen x).digits).length - 1
      if -5 ≤ leading ∧ leading < 16 then
        Decimal.positionalForm true (numeral (chosen x).digits) leading
      else Decimal.scientificForm (numeral (chosen x).digits) leading) := by
    rw [doubleText, if_pos hx, Decimal.Layout.write]
    simp only [doubleLayout, decide_eq_true_eq]
    rfl
  have hsign : (if x.toBits.toNat / Nat.pow 2 63 = 1 then ['-'] else []) = [] ∨
      (if x.toBits.toNat / Nat.pow 2 63 = 1 then ['-'] else []) = ['-'] := by
    split <;> simp
  rw [htext]
  generalize (if x.toBits.toNat / Nat.pow 2 63 = 1 then ['-'] else []) = sign at hsign
  simp only
  split
  next hpoint =>
    obtain ⟨n, hscan, hdouble, hsize⟩ :=
      Numeral.exists_scan_positionalForm hsign exponent_chosen rfl hpoint.2
    have hlength : 0 < (numeral (chosen x).digits).length :=
      List.length_pos_of_ne_nil (Numeral.leads_numeral _).nonempty
    exact ⟨n, hscan, hdouble, hsize, fun h => by omega⟩
  next hpoint =>
    obtain ⟨n, hscan, hdouble, hdigits, hunit⟩ :=
      Numeral.exists_scan_scientificForm hsign (d := chosen x) rfl
    exact ⟨n, hscan, hdouble, Numeral.size_eq_value hdigits hunit, fun _ => ⟨hdigits, hunit⟩⟩

/-- The text of a finite double is read as a double. -/
theorem exists_read_doubleText {x : Float} (hx : x.isFinite = true) :
    ∃ y, Numeral.read (doubleText x) = .ok (.float y, []) := by
  obtain ⟨n, hscan, hdouble, hsize, hlarge⟩ := exists_scan_doubleText hx
  suffices hvalue : ∃ y, n.value? = some (.float y) by
    obtain ⟨y, hy⟩ := hvalue
    exact ⟨y, Numeral.read_eq_ok_iff.mpr ⟨n, hscan, hy⟩⟩
  rcases Decimal.upperEnd_le_or_greatest hx with hle | ⟨i, hi, htop⟩
  · exact Numeral.exists_value?_of_le hdouble (hsize.trans_le ((value_chosen_le x).trans hle))
  · obtain ⟨hexponent, hhigh, hdigits, hfinite⟩ := Decimal.isFinite_greatest i hi
    have hchosen : chosen x = shortest .toEven (Decimal.greatest i) := by
      have hne : (Decimal.greatest i).significand ≠ 0 := by
        have : (Decimal.greatest i).significand = 2 ^ 53 - 1 - i := rfl
        omega
      rw [chosen, htop, if_neg hne]
    rw [hchosen] at hlarge
    obtain ⟨hn, hunit⟩ := hlarge hexponent
    exact Numeral.exists_value?_of_isFinite hdouble hdigits (by omega) hn
      (by rw [hunit]; omega) hfinite

/-! ### What is read -/

/-- A number that is read: an integer of 64 bits or a finite double. -/
def Number.Fits : Number → Prop
  | .int n => Numeral.Fits n
  | .float x => x.isFinite = true

theorem Numeral.absorb_lt {n : Nat} (h : n < 2 ^ 64) (digits : List Nat) :
    (absorb n digits).1 < 2 ^ 64 := by
  induction digits generalizing n with
  | nil => exact h
  | cons d rest ih =>
      rw [absorb]
      split
      next hd => exact ih hd
      next => exact h

theorem isFinite_ofScientific {m : Nat} (h : m ≤ 2 ^ 64) :
    (Float.ofScientific m false 0).isFinite = true := by
  have hm : (m : ℚ) ≤ 2 ^ 64 := by exact_mod_cast h
  have hlimit : (2 : ℚ) ^ 64 ≤ safeLimit := by
    have hten : (2 : ℚ) ^ 64 ≤ 10 ^ 64 := pow_le_pow_left₀ zero_le_two (by norm_num) 64
    have hpower : (10 : ℚ) ^ 64 ≤ 10 ^ 308 := pow_le_pow_right₀ (by norm_num) (by decide)
    exact (hten.trans hpower).trans Decimal.safeLimit_bounds.1
  refine (Decimal.within_ofScientific (Nat.zero_le _) ?_).finite
  calc Decimal.raised (Decimal.raised m * 10 ^ 0) = Decimal.raised (Decimal.raised m) := by
        rw [pow_zero, mul_one]
    _ ≤ Decimal.raised (Decimal.raised (2 ^ 64)) :=
        Decimal.raised_le_raised (Decimal.raised_le_raised hm)
    _ ≤ 2 ^ 64 * Decimal.growth ^ 2 := Decimal.raised_raised_le (one_le_pow₀ one_le_two)
    _ ≤ safeLimit * Decimal.growth ^ 5 :=
        mul_le_mul hlimit (pow_le_pow_right₀ Decimal.one_le_growth (by decide))
          (pow_nonneg (zero_le_one.trans Decimal.one_le_growth) 2)
          ((pow_nonneg zero_le_two 64).trans hlimit)
    _ < 2 ^ (1024 : ℤ) := Decimal.growth_lt

theorem isFinite_ofInt {n : Int} (h : Numeral.Fits n) : (Float.ofInt n).isFinite = true := by
  obtain ⟨hlow, hhigh⟩ := h
  cases n with
  | ofNat n => exact isFinite_ofScientific (by rw [Int.ofNat_eq_natCast] at hhigh; omega)
  | negSucc n => exact Decimal.isFinite_neg (isFinite_ofScientific (by omega))

/-- The value of a numeral fits. -/
theorem Numeral.fits_of_value? (numeral : Numeral) (n : Number)
    (h : numeral.value? = some n) : n.Fits := by
  have hlt : (absorb 0 numeral.whole).1 < 2 ^ 64 := absorb_lt (by decide) numeral.whole
  have hsign {x : Float} (hx : x.isFinite = true) :
      (if numeral.negative then -x else x).isFinite = true := by
    split
    · exact Decimal.isFinite_neg hx
    · exact hx
  simp only [value?] at h
  split at h
  · split at h
    · cases h
      exact ⟨by omega, by omega⟩
    · split at h
      next =>
        cases h
        exact hsign (isFinite_ofScientific hlt.le)
      next hsmall =>
        cases h
        have hle : (absorb 0 numeral.whole).1 ≤ 2 ^ 63 := Nat.not_lt.mp fun hlt => hsmall (.inr hlt)
        exact ⟨by omega, by omega⟩
  · obtain ⟨x, hx, rfl⟩ := Option.map_eq_some_iff.mp h
    exact hsign (isFinite_of_scale (isFinite_ofScientific (absorb_lt hlt _).le) hx)

end Json

end CurlyTemplate
