import CurlyTemplate.Json.Printer
import CurlyTemplate.Json.Reader

/-!
# Strings read back

Every character of a string is written by itself or as an escape, and read back from
there (`readString_escape`). So a quoted string is read back as a whole, whatever stands
behind its closing quote (`readString_quoted`).
-/

namespace CurlyTemplate

namespace Json

theorem hexValue?_hexDigit : ∀ n < 16, hexValue? (hexDigit n) = some n := by decide

theorem length_le_utf8ByteSize (s : List Char) : s.length ≤ (String.ofList s).utf8ByteSize := by
  induction s with
  | nil => exact Nat.zero_le _
  | cons c rest ih =>
      have hc := c.utf8Size_pos
      rw [String.ofList_cons, String.utf8ByteSize_append]
      simp
      omega

theorem four_le_utf8ByteSize (a b c d : Char) (rest : List Char) :
    4 ≤ (String.ofList ((a :: b :: c :: d :: rest).take 4)).utf8ByteSize :=
  length_le_utf8ByteSize [a, b, c, d]

/-- The code of a control character, as an escape writes it. -/
theorem readHex4_control {n : Nat} (h : n < 0x20) (rest : List Char) :
    readHex4 ('0' :: '0' :: hexDigit (n / 16) :: hexDigit (n % 16) :: rest) = .ok (n, rest) := by
  have hzero : hexValue? '0' = some 0 := by decide
  have hhigh := hexValue?_hexDigit (n / 16) (by omega)
  have hlow := hexValue?_hexDigit (n % 16) (by omega)
  rw [readHex4, if_neg (Nat.not_lt.mpr (four_le_utf8ByteSize _ _ _ _ rest))]
  simp only [hzero, hhigh, hlow]
  congr 2
  omega

theorem readString_of_escape {whole : Bool} {before text rest : List Char} {c : Char}
    (h : readEscape whole text = .ok (c, rest)) :
    readString whole before ('\\' :: text) = readString whole (c :: before) rest := by
  rw [readString]
  split
  next h' => cases h.symm.trans h'
  next h' =>
    cases h.symm.trans h'
    rfl

theorem readEscape_control {c : Char} (h : c.toNat < 0x20) (rest : List Char) :
    readEscape true
      ('u' :: '0' :: '0' :: hexDigit (c.toNat / 16) :: hexDigit (c.toNat % 16) :: rest) =
        .ok (c, rest) := by
  have hwhole : ¬ (0xD800 ≤ c.toNat ∧ c.toNat ≤ 0xDFFF) := by omega
  simp only [readEscape, readHex4_control h, bind, Except.bind, if_neg hwhole, pure, Except.pure,
    Char.ofNat_toNat]

/-- What stands for a character in a quoted string is read as the character. -/
theorem readString_escape (before rest : List Char) (c : Char) :
    readString true before (escape c ++ rest) = readString true (c :: before) rest := by
  unfold escape
  iterate 7
    split
    · subst c
      exact readString_of_escape rfl
  split
  case isTrue hcontrol => exact readString_of_escape (readEscape_control hcontrol rest)
  case isFalse hquote hslash _ _ _ _ _ hcontrol =>
    rw [List.singleton_append, readString.eq_4]
    · rw [if_neg hcontrol]
    · exact fun h => hquote h
    · exact fun h => hslash h

theorem readString_quoted (before s rest : List Char) :
    readString true before (s.flatMap escape ++ '"' :: rest) =
      .ok (before.reverse ++ s, rest) := by
  induction s generalizing before with
  | nil => rw [List.flatMap_nil, List.nil_append, readString, List.append_nil]
  | cons c s ih =>
      rw [List.flatMap_cons, List.append_assoc, readString_escape, ih, List.reverse_cons,
        List.append_assoc, List.singleton_append]

end Json

end CurlyTemplate
