import Mathlib.Algebra.Group.Int.Defs
import Mathlib.Algebra.Group.Nat.Defs
import CurlyTemplate.Json.Printer
import CurlyTemplate.Json.Reader
import CurlyTemplate.Proofs.Results

/-!
# Numerals read back

A numeral ends where no digit, point or exponent goes on. What is read from a numeral
alone is therefore read from it in front of any text that does not go on with one
(`Numeral.read_append`). An integer of 64 bits is read back from its numeral
(`Numeral.read_signedNumeral`).
-/

namespace CurlyTemplate

namespace Json

/-- A text in front of which a numeral ends. -/
def EndsNumeral (rest : List Char) : Prop :=
  ∀ c ∈ rest.head?, digit? c = none ∧ c ≠ '.' ∧ c ≠ 'e' ∧ c ≠ 'E'

theorem takeDigits_append {rest : List Char} (h : EndsNumeral rest) (text : List Char) :
    takeDigits (text ++ rest) = ((takeDigits text).1, (takeDigits text).2 ++ rest) := by
  induction text with
  | nil =>
      cases rest with
      | nil => rfl
      | cons c rest =>
          have hc : digit? c = none := (h c rfl).1
          simp [takeDigits, hc]
  | cons c text ih =>
      cases hc : digit? c with
      | none => simp [takeDigits, hc]
      | some d => simp [takeDigits, hc, ih]

namespace Numeral

theorem digits1_eq_ok_iff {text left : List Char} {ds : List Nat} :
    digits1 text = .ok (ds, left) ↔ takeDigits text = (ds, left) ∧ ds ≠ [] := by
  unfold digits1
  obtain ⟨digits, behind⟩ := takeDigits text
  cases digits with
  | nil => cases text <;> simp +contextual [eq_comm]
  | cons d more => simp +contextual [eq_comm]

theorem scanWhole_eq_ok_iff {text left : List Char} {ds : List Nat} :
    scanWhole text = .ok (ds, left) ↔
      digits1 text = .ok (ds, left) ∧ ∀ d more, ds ≠ 0 :: d :: more := by
  unfold scanWhole
  split
  next d more behind hdigits =>
    rw [hdigits]
    simp +contextual [eq_comm]
  next hzero =>
    refine ⟨fun h => ⟨h, fun d more hds => ?_⟩, And.left⟩
    exact hzero d more left (hds ▸ h)

section Append

variable {text left rest : List Char}

theorem digits1_append (h : EndsNumeral rest) {ds : List Nat}
    (hread : digits1 text = .ok (ds, left)) : digits1 (text ++ rest) = .ok (ds, left ++ rest) := by
  obtain ⟨htake, hne⟩ := digits1_eq_ok_iff.mp hread
  exact digits1_eq_ok_iff.mpr ⟨by rw [takeDigits_append h, htake], hne⟩

theorem scanWhole_append (h : EndsNumeral rest) {ds : List Nat}
    (hread : scanWhole text = .ok (ds, left)) :
    scanWhole (text ++ rest) = .ok (ds, left ++ rest) := by
  obtain ⟨hdigits, hzero⟩ := scanWhole_eq_ok_iff.mp hread
  exact scanWhole_eq_ok_iff.mpr ⟨digits1_append h hdigits, hzero⟩

/-- Digits with something made of them. -/
theorem digits1_bind_append (h : EndsNumeral rest) {α : Type} {f : List Nat → α} {a : α}
    (hread : (digits1 text >>= fun p => .ok (f p.1, p.2)) = .ok (a, left)) :
    (digits1 (text ++ rest) >>= fun p => .ok (f p.1, p.2)) = .ok (a, left ++ rest) := by
  obtain ⟨⟨ds, left'⟩, hdigits, hmake⟩ := bind_eq_ok_iff.mp hread
  cases hmake
  rw [digits1_append h hdigits]
  rfl

theorem scanFraction_append (h : EndsNumeral rest) {ds : Option (List Nat)}
    (hread : scanFraction text = .ok (ds, left)) :
    scanFraction (text ++ rest) = .ok (ds, left ++ rest) := by
  cases text with
  | nil =>
      cases hread
      cases rest with
      | nil => rfl
      | cons c rest =>
          have hc := (h c rfl).2.1
          simp [scanFraction, hc]
  | cons c text =>
      by_cases hc : c = '.'
      · subst hc
        exact digits1_bind_append h hread
      · have hnone (t : List Char) : scanFraction (c :: t) = .ok (none, c :: t) := by
          simp [scanFraction, hc]
        rw [hnone] at hread
        cases hread
        exact hnone _

theorem scanExponent_append (h : EndsNumeral rest) {exponent : Option Int}
    (hread : scanExponent text = .ok (exponent, left)) :
    scanExponent (text ++ rest) = .ok (exponent, left ++ rest) := by
  cases text with
  | nil =>
      cases hread
      cases rest with
      | nil => rfl
      | cons c rest =>
          have hc := (h c rfl).2.2
          simp [scanExponent, hc]
  | cons c text =>
      by_cases hc : c = 'e' ∨ c = 'E'
      · cases text with
        | nil =>
            simp only [scanExponent, hc, if_true] at hread
            cases hread
        | cons sign text =>
            simp only [List.cons_append]
            by_cases hminus : sign = '-'
            · subst hminus
              simp only [scanExponent, hc, if_true] at hread ⊢
              exact digits1_bind_append (f := fun ds => some (-(ofDigits ds : Int))) h hread
            by_cases hplus : sign = '+'
            · subst hplus
              simp only [scanExponent, hc, if_true] at hread ⊢
              exact digits1_bind_append (f := fun ds => some (ofDigits ds : Int)) h hread
            have hunsigned (t : List Char) : scanExponent (c :: sign :: t) =
                (digits1 (sign :: t) >>= fun p => .ok (some (ofDigits p.1 : Int), p.2)) := by
              simp only [scanExponent, hc, if_true]
              split
              next heq => exact absurd (List.cons.inj heq).1 hminus
              next heq => exact absurd (List.cons.inj heq).1 hplus
              next => rfl
            rw [hunsigned] at hread ⊢
            exact digits1_bind_append (f := fun ds => some (ofDigits ds : Int)) h hread
      · simp only [scanExponent, hc, if_false, List.cons_append] at hread ⊢
        cases hread
        rfl

end Append

/-- A text without the minus sign in front. -/
def unsigned : List Char → List Char
  | '-' :: rest => rest
  | text => text

theorem unsigned_cons {c : Char} (hc : c ≠ '-') (rest : List Char) :
    unsigned (c :: rest) = c :: rest := by
  simp [unsigned, hc]

theorem scan_eq_ok_iff {text left : List Char} {n : Numeral} :
    scan text = .ok (n, left) ↔
      n.negative = (text.head? == some '-') ∧
      ∃ left₁ left₂, scanWhole (unsigned text) = .ok (n.whole, left₁) ∧
        scanFraction left₁ = .ok (n.fraction, left₂) ∧
        scanExponent left₂ = .ok (n.exponent, left) := by
  have hscan : scan text =
      (scanWhole (unsigned text) >>= fun p => scanFraction p.2 >>= fun q =>
        scanExponent q.2 >>= fun r =>
          .ok (⟨text.head? == some '-', p.1, q.1, r.1⟩, r.2)) := by
    cases text with
    | nil => rfl
    | cons c rest =>
        by_cases hc : c = '-'
        · subst hc
          rfl
        · have hhead : (some c == some '-') = false := by simpa using hc
          rw [unsigned_cons hc, List.head?_cons, hhead, scan]
          · rfl
          · exact fun rest heq => hc (List.cons.inj heq).1
  rw [hscan]
  simp only [bind_eq_ok_iff, Prod.exists, Except.ok.injEq, Prod.mk.injEq]
  constructor
  · rintro ⟨whole, left₁, hwhole, fraction, left₂, hfraction, exponent, left₃, hexponent, rfl, rfl⟩
    exact ⟨rfl, left₁, left₂, hwhole, hfraction, hexponent⟩
  · rintro ⟨hnegative, left₁, left₂, hwhole, hfraction, hexponent⟩
    exact ⟨_, _, hwhole, _, _, hfraction, _, _, hexponent, by rw [← hnegative], rfl⟩

/-- A numeral is cut from the front of a text as from the numeral alone. -/
theorem scan_append {text left rest : List Char} (h : EndsNumeral rest) {n : Numeral}
    (hread : scan text = .ok (n, left)) : scan (text ++ rest) = .ok (n, left ++ rest) := by
  obtain ⟨hnegative, left₁, left₂, hwhole, hfraction, hexponent⟩ := scan_eq_ok_iff.mp hread
  have hunsigned : unsigned (text ++ rest) = unsigned text ++ rest := by
    cases text with
    | nil => cases hwhole
    | cons c text =>
        by_cases hc : c = '-'
        · subst hc
          rfl
        · rw [List.cons_append, unsigned_cons hc, unsigned_cons hc, List.cons_append]
  refine scan_eq_ok_iff.mpr ⟨?_, left₁ ++ rest, left₂ ++ rest, ?_, ?_, ?_⟩
  · cases text with
    | nil => cases hwhole
    | cons c text => exact hnegative
  · rw [hunsigned]
    exact scanWhole_append h hwhole
  · exact scanFraction_append h hfraction
  · exact scanExponent_append h hexponent

theorem read_eq_ok_iff {text left : List Char} {n : Number} :
    read text = .ok (n, left) ↔
      ∃ numeral, scan text = .ok (numeral, left) ∧ numeral.value? = some n := by
  simp only [read, bind_eq_ok_iff, Prod.exists]
  constructor
  · rintro ⟨numeral, left', hscan, hvalue⟩
    split at hvalue
    next m hm =>
      cases hvalue
      exact ⟨numeral, hscan, hm⟩
    next => cases hvalue
  · rintro ⟨numeral, hscan, hvalue⟩
    exact ⟨numeral, left, hscan, by rw [hvalue]⟩

/-- A number is read from the front of a text as from its numeral alone. -/
theorem read_append {text rest : List Char} (h : EndsNumeral rest) {n : Number}
    (hread : read text = .ok (n, [])) : read (text ++ rest) = .ok (n, rest) := by
  obtain ⟨numeral, hscan, hvalue⟩ := read_eq_ok_iff.mp hread
  exact read_eq_ok_iff.mpr ⟨numeral, scan_append h hscan, hvalue⟩

end Numeral

/-- The number that a digit stands for. -/
def digitValue (c : Char) : Nat := c.toNat - '0'.toNat

theorem takeDigits_of_isDigit {s : List Char} (h : ∀ c ∈ s, c.isDigit = true) :
    takeDigits s = (s.map digitValue, []) := by
  induction s with
  | nil => rfl
  | cons c rest ih =>
      rw [List.forall_mem_cons] at h
      simp only [takeDigits, digit?, h.1, if_true, ih h.2]
      rfl

theorem isDigit_of_mem_numeral {n : Nat} {c : Char} (h : c ∈ Decimal.numeral n) :
    c.isDigit = true :=
  Nat.isDigit_of_mem_toDigits (by decide) (by decide) h

theorem ofDigits_numeral (n : Nat) : ofDigits ((Decimal.numeral n).map digitValue) = n := by
  rw [ofDigits, List.foldl_map]
  exact Nat.ofDigitChars_toDigits (by decide) (by decide)

/-- No zero stands in front of another digit. -/
theorem head?_numeral {n : Nat} (h : 0 < n) : (Decimal.numeral n).head? ≠ some '0' := by
  induction n using Nat.strongRecOn with
  | ind n ih =>
      rw [Decimal.numeral, Nat.toDigits_eq_if (by decide)]
      split
      · simpa using Nat.ne_of_gt h
      · have hdiv : 0 < n / 10 := by omega
        have hhead := ih (n / 10) (by omega) hdiv
        rw [List.head?_append]
        cases hdigits : Nat.toDigits 10 (n / 10) with
        | nil => exact absurd hdigits Nat.toDigits_ne_nil
        | cons c digits =>
            rw [Decimal.numeral, hdigits] at hhead
            exact hhead

theorem eq_zero_of_digitValue {c : Char} (h : c.isDigit = true) (hc : digitValue c = 0) :
    c = '0' := by
  have hlow : '0'.toNat ≤ c.toNat := by
    simp only [Char.isDigit, Bool.and_eq_true, decide_eq_true_eq] at h
    exact h.1
  have heq : c.toNat = '0'.toNat := by
    unfold digitValue at hc
    omega
  exact Char.toNat_inj.mp heq

theorem le_foldl_digits (ds : List Nat) (n : Nat) :
    n ≤ ds.foldl (fun n d => 10 * n + d) n := by
  induction ds generalizing n with
  | nil => exact Nat.le_refl n
  | cons d ds ih => exact Nat.le_trans (by omega) (ih (10 * n + d))

theorem absorb_eq {ds : List Nat} {n : Nat} (h : ds.foldl (fun n d => 10 * n + d) n < 2 ^ 64) :
    Numeral.absorb n ds = (ds.foldl (fun n d => 10 * n + d) n, []) := by
  induction ds generalizing n with
  | nil => rfl
  | cons d ds ih =>
      have hn := le_foldl_digits ds (10 * n + d)
      rw [Numeral.absorb]
      split
      next => exact ih h
      next hlarge => exact absurd (Nat.lt_of_le_of_lt hn h) hlarge

namespace Numeral

/-- The integers that are not read as doubles. -/
def Fits (n : Int) : Prop := -2 ^ 63 ≤ n ∧ n < 2 ^ 64

theorem scanWhole_numeral (n : Nat) :
    scanWhole (Decimal.numeral n) = .ok ((Decimal.numeral n).map digitValue, []) := by
  have htake := takeDigits_of_isDigit fun c hc => isDigit_of_mem_numeral (n := n) hc
  refine scanWhole_eq_ok_iff.mpr ⟨digits1_eq_ok_iff.mpr ⟨htake, ?_⟩, fun d more hds => ?_⟩
  · simp [Decimal.numeral]
  · obtain ⟨c, rest, hnumeral, hc, hrest⟩ := List.map_eq_cons_iff.mp hds
    have hlong : 1 < (Decimal.numeral n).length := by
      rw [hnumeral, List.length_cons, ← List.length_map digitValue, hrest]
      simp
    have hpos : 0 < n := by
      refine Nat.pos_of_ne_zero fun hzero => ?_
      subst hzero
      simp [Decimal.numeral] at hlong
    have hdigit : c.isDigit = true :=
      isDigit_of_mem_numeral (n := n) (hnumeral ▸ List.mem_cons_self)
    have hhead := head?_numeral hpos
    rw [hnumeral] at hhead
    exact hhead (congrArg some (eq_zero_of_digitValue hdigit hc))

theorem scan_numeral (n : Nat) :
    scan (Decimal.numeral n) =
      .ok (⟨false, (Decimal.numeral n).map digitValue, none, none⟩, []) := by
  have hminus : (Decimal.numeral n).head? ≠ some '-' := fun h =>
    absurd (isDigit_of_mem_numeral (List.mem_of_head? h)) (by decide)
  have hunsigned : unsigned (Decimal.numeral n) = Decimal.numeral n := by
    cases h : Decimal.numeral n with
    | nil => rfl
    | cons c rest => exact unsigned_cons (fun hc => hminus (by rw [h, hc]; rfl)) rest
  refine scan_eq_ok_iff.mpr ⟨by simpa using hminus, [], [], ?_, rfl, rfl⟩
  rw [hunsigned]
  exact scanWhole_numeral n

theorem scan_minus_numeral (n : Nat) :
    scan ('-' :: Decimal.numeral n) =
      .ok (⟨true, (Decimal.numeral n).map digitValue, none, none⟩, []) :=
  scan_eq_ok_iff.mpr ⟨rfl, [], [], scanWhole_numeral n, rfl, rfl⟩

theorem absorb_numeral {n : Nat} (h : n < 2 ^ 64) :
    absorb 0 ((Decimal.numeral n).map digitValue) = (n, []) := by
  have hn := ofDigits_numeral n
  rw [absorb_eq (by rw [← ofDigits, hn]; exact h), ← ofDigits, hn]

/-- An integer of 64 bits is read back from its numeral. -/
theorem read_signedNumeral {n : Int} (h : Fits n) :
    read (Decimal.signedNumeral n) = .ok (.int n, []) := by
  obtain ⟨hlow, hhigh⟩ := h
  have habs := absorb_numeral (n := n.natAbs) (by omega)
  unfold Decimal.signedNumeral
  split
  next hneg =>
    refine read_eq_ok_iff.mpr ⟨_, scan_minus_numeral _, ?_⟩
    have hsmall : ¬ (n.natAbs = 0 ∨ Nat.pow 2 63 < n.natAbs) := by
      rintro (hzero | hlarge)
      · omega
      · change 2 ^ 63 < n.natAbs at hlarge
        omega
    have hvalue : -(n.natAbs : Int) = n := by omega
    simp only [value?, habs, Bool.not_true, Bool.false_eq_true, if_false, if_neg hsmall, hvalue]
  next hneg =>
    refine read_eq_ok_iff.mpr ⟨_, scan_numeral _, ?_⟩
    have hvalue : (n.natAbs : Int) = n := by omega
    simp only [value?, habs, Bool.not_false, if_true, hvalue]

end Numeral

end Json

end CurlyTemplate
