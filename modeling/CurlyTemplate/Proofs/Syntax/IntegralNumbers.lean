import CurlyTemplate.Proofs.Decimal.Integral
import CurlyTemplate.Proofs.Json.Numerals
import CurlyTemplate.Syntax.Printer

/-!
# The text of integral numbers

A number literal whose value is an integer is printed as a numeral, which is read here by its
sign and its digits (`integerOf?`). The numeral stands for the value as long as that has 64
bits, and for the nearest integer of 64 bits beyond them (`print_number_iff`).
-/

namespace CurlyTemplate

namespace Decimal

/-- The number that stands there digit by digit. -/
def naturalOf? (digits : List Char) : Option Nat :=
  if digits ≠ [] ∧ ∀ c ∈ digits, c.isDigit = true then some (Nat.ofDigitChars 10 digits 0)
  else none

/-- The number that stands there in digits, behind a minus sign if it is negative. -/
def integerOf? : List Char → Option Int
  | '-' :: digits => (naturalOf? digits).map fun (n : Nat) => -(n : Int)
  | digits => (naturalOf? digits).map fun (n : Nat) => (n : Int)

theorem naturalOf?_numeral (n : Nat) : naturalOf? (numeral n) = some n := by
  have hne : numeral n ≠ [] := Nat.toDigits_ne_nil
  rw [naturalOf?, if_pos ⟨hne, fun c hc => Json.isDigit_of_mem_numeral hc⟩]
  exact congrArg some (Nat.ofDigitChars_toDigits (by decide) (by decide))

theorem integerOf?_signedNumeral (n : Int) : integerOf? (signedNumeral n) = some n := by
  unfold signedNumeral
  split
  next hneg =>
    rw [integerOf?, naturalOf?_numeral, Option.map_some, Option.some_inj]
    omega
  next hneg =>
    have hminus (digits : List Char) : numeral n.natAbs ≠ '-' :: digits := fun heq =>
      absurd (Json.isDigit_of_mem_numeral (heq ▸ List.mem_cons_self)) (by decide)
    rw [integerOf?, naturalOf?_numeral, Option.map_some, Option.some_inj]
    · omega
    · exact hminus

end Decimal

namespace Printer

open Decimal

/-- The doubles that are told to be integers are those whose value is one. -/
theorem integer?_eq_some_iff {x : Float} {n : Int} :
    integer? x = some n ↔ x.isFinite = true ∧ value x.toModel.unpack = n := by
  unfold integer?
  split
  next hx =>
    rw [value_toModel hx, Option.map_eq_some_iff, and_iff_right hx]
    by_cases hsign : x.toBits.toNat / 2 ^ 63 = 1
    · have hbits : x.toBits.toNat / Nat.pow 2 63 = 1 := hsign
      simp only [hsign, hbits, if_true, neg_one_mul, neg_eq_iff_eq_neg]
      exact_mod_cast Binary.exists_integer?_iff
    · have hbits : ¬ x.toBits.toNat / Nat.pow 2 63 = 1 := hsign
      simp only [hsign, hbits, if_false, one_mul]
      exact Binary.exists_integer?_iff
  next hx => exact iff_of_false (Option.some_ne_none n).symm fun h => hx h.1

theorem numberChars_of_integer {x : Float} {n : Int} (h : integer? x = some n) :
    numberChars x = signedNumeral (clamp n) := by
  simp only [numberChars, h]

theorem clamp_eq (n : Int) : clamp n = max (-2 ^ 63) (min n (2 ^ 63 - 1)) := rfl

theorem clamp_eq_self_iff {n : Int} : clamp n = n ↔ -2 ^ 63 ≤ n ∧ n < 2 ^ 63 := by
  rw [clamp_eq]
  omega

end Printer

namespace Expression

open Decimal (value integerOf? integerOf?_signedNumeral)
open Printer (clamp clamp_eq clamp_eq_self_iff)

/-- The text of a number literal whose value is an integer. -/
theorem print_number {x : Float} {n : Int} (hx : x.isFinite = true)
    (hn : value x.toModel.unpack = n) (loc : Span) :
    (Expression.number x loc).print = String.ofList (Decimal.signedNumeral (clamp n)) := by
  rw [print, Printer.expression,
    Printer.numberChars_of_integer (Printer.integer?_eq_some_iff.mpr ⟨hx, hn⟩)]

/-- The numeral of a literal is read as the nearest integer of 64 bits. -/
theorem integerOf?_print_number {x : Float} {n : Int} (hx : x.isFinite = true)
    (hn : value x.toModel.unpack = n) (loc : Span) :
    integerOf? (Expression.number x loc).print.toList = some (clamp n) := by
  rw [print_number hx hn, String.toList_ofList, integerOf?_signedNumeral]

theorem print_number_eq_iff {x y : Float} {n m : Int} (hx : x.isFinite = true)
    (hn : value x.toModel.unpack = n) (hy : y.isFinite = true)
    (hm : value y.toModel.unpack = m) (loc loc' : Span) :
    (Expression.number x loc).print = (Expression.number y loc').print ↔ clamp n = clamp m := by
  constructor
  · intro h
    have hread := integerOf?_print_number hx hn loc
    rw [h, integerOf?_print_number hy hm loc'] at hread
    exact (Option.some.inj hread).symm
  · intro h
    rw [print_number hx hn, print_number hy hm, h]

/-- The text of a literal whose value is an integer stands for the value just when that has 64
bits, and else for the nearest integer that has. Two such literals print alike just when they
have the same value or lie beyond the same end. -/
theorem print_number_iff {x y : Float} {n m : Int} (hx : x.isFinite = true)
    (hn : value x.toModel.unpack = n) (hy : y.isFinite = true)
    (hm : value y.toModel.unpack = m) (loc loc' : Span) :
    integerOf? (Expression.number x loc).print.toList =
        some (max (-2 ^ 63) (min n (2 ^ 63 - 1))) ∧
      (integerOf? (Expression.number x loc).print.toList = some n ↔
        -2 ^ 63 ≤ n ∧ n < 2 ^ 63) ∧
      ((Expression.number x loc).print = (Expression.number y loc').print ↔
        n = m ∨ (2 ^ 63 - 1 ≤ n ∧ 2 ^ 63 - 1 ≤ m) ∨ (n ≤ -2 ^ 63 ∧ m ≤ -2 ^ 63)) := by
  rw [integerOf?_print_number hx hn, print_number_eq_iff hx hn hy hm]
  refine ⟨rfl, Option.some_inj.trans clamp_eq_self_iff, ?_⟩
  rw [clamp_eq, clamp_eq]
  omega

/-- The double `-2 ^ 63` is the last one to be printed as it is, and `-2 ^ 64` is printed
like it. -/
theorem print_number_iff_least :
    let x := Float.ofBits 0xC3E0000000000000
    let y := Float.ofBits 0xC3F0000000000000
    (x.isFinite = true ∧ value x.toModel.unpack = (-2 ^ 63 : Int)) ∧
      (y.isFinite = true ∧ value y.toModel.unpack = (-2 ^ 64 : Int)) ∧
      integerOf? (Expression.number x .synthetic).print.toList = some (-2 ^ 63) ∧
      (Expression.number x .synthetic).print = (Expression.number y .synthetic).print := by
  intro x y
  have hx : x.isFinite = true := by decide +kernel
  have hn : value x.toModel.unpack = (-2 ^ 63 : Int) := by decide +kernel
  have hy : y.isFinite = true := by decide +kernel
  have hm : value y.toModel.unpack = (-2 ^ 64 : Int) := by decide +kernel
  obtain ⟨-, hread, hsame⟩ := print_number_iff hx hn hy hm .synthetic .synthetic
  exact ⟨⟨hx, hn⟩, ⟨hy, hm⟩, hread.mpr (by decide), hsame.mpr (by decide)⟩

/-- The double `2 ^ 63` is printed as the integer below it. -/
theorem not_printsValue_beyond :
    ¬ ∀ (x : Float) (n : Int) (loc : Span), x.isFinite = true → value x.toModel.unpack = n →
      integerOf? (Expression.number x loc).print.toList = some n := by
  intro h
  have hx : (Float.ofBits 0x43E0000000000000).isFinite = true := by decide +kernel
  have hn : value (Float.ofBits 0x43E0000000000000).toModel.unpack = (2 ^ 63 : Int) := by
    decide +kernel
  have hread := h _ _ .synthetic hx hn
  rw [integerOf?_print_number hx hn] at hread
  exact absurd hread (by decide)

end Expression

end CurlyTemplate
