import CurlyTemplate.Text.Dasherize
import Mathlib

/-!
# The dashed spelling without a state

`dashed` hands on from each character to the next whether it was a letter. Said without
that, the dashed spelling has a piece for each character, which depends on the character
and on the one right before it (`dashed_eq_flatten`). Dashes come in only in front of
capitals behind letters, so they account for all that is longer, and without them the
text has changed its case and nothing else (`dasherize_eq`).

Among letters every dash announces a capital. Words of letters that start with a capital
can therefore be read back from their dashed spelling (`dashed_inj`).
-/

namespace CurlyTemplate

namespace Text

/-- What stands for a character, given the one right before it. -/
def dashedPiece (before : Option Char) (c : Char) : List Char :=
  if c.isUpper then
    if before.any Char.isAlpha then ['-', c.toLower] else [c.toLower]
  else [c]

theorem dashedPiece_eq (before : Option Char) (c : Char) :
    dashedPiece before c =
      (if before.any Char.isAlpha && c.isUpper then ['-'] else []) ++ [c.toLower] := by
  rw [dashedPiece]
  by_cases hupper : c.isUpper = true
  · cases before.any Char.isAlpha <;> simp [hupper]
  · simp [hupper, Char.toLower_eq_of_not_isUpper hupper]

/-- A dash is put in front of a capital behind a letter. The character itself follows in
lower case. -/
theorem dashed_cons_eq (afterLetter : Bool) (c : Char) (rest : List Char) :
    dashed afterLetter (c :: rest) =
      (if afterLetter && c.isUpper then ['-'] else []) ++ c.toLower :: dashed c.isAlpha rest := by
  rw [dashed_cons]
  by_cases hupper : c.isUpper = true
  · have hletter : c.isAlpha = true := by simp [Char.isAlpha, hupper]
    cases afterLetter <;> simp [hupper, hletter]
  · simp [hupper, Char.toLower_eq_of_not_isUpper hupper]

theorem dashed_eq_flatten (before : Option Char) (s : List Char) :
    dashed (before.any Char.isAlpha) s =
      (List.zipWith dashedPiece (before :: s.map some) s).flatten := by
  induction s generalizing before with
  | nil => rfl
  | cons c rest ih =>
      rw [dashed_cons_eq, List.map_cons, List.zipWith_cons_cons, List.flatten_cons,
        dashedPiece_eq, ← ih (some c), List.append_assoc]
      rfl

theorem isUpper_of_mem_dashed {afterLetter : Bool} {s : List Char} {c : Char}
    (h : c ∈ dashed afterLetter s) : c.isUpper = false := by
  induction s generalizing afterLetter with
  | nil => cases h
  | cons d rest ih =>
      rw [dashed_cons_eq, List.mem_append, List.mem_cons] at h
      rcases h with h | rfl | h
      · split at h
        · cases List.mem_singleton.mp h
          rfl
        · cases h
      · exact Char.isUpper_toLower_eq_false d
      · exact ih h

theorem dashed_dashed (afterLetter : Bool) (s : List Char) :
    dashed false (dashed afterLetter s) = dashed afterLetter s :=
  dashed_eq_self fun _ hc => isUpper_of_mem_dashed hc

/-- How often a capital stands right behind a letter. -/
def capitalsInside (s : List Char) : Nat :=
  (s.zip s.tail).countP fun pair => pair.1.isAlpha && pair.2.isUpper

theorem capitalsInside_cons_cons (c d : Char) (rest : List Char) :
    capitalsInside (c :: d :: rest) =
      (if c.isAlpha && d.isUpper then 1 else 0) + capitalsInside (d :: rest) := by
  rw [capitalsInside, List.tail_cons, List.zip_cons_cons, List.countP_cons, Nat.add_comm]
  rfl

/-- For any measure of characters that tells no case and by which a dash counts as one. -/
theorem sum_dashed {size : Char → Nat} (hdash : size '-' = 1)
    (hlower : ∀ c, size c.toLower = size c) (s : List Char) :
    ((dashed false s).map size).sum = (s.map size).sum + capitalsInside s := by
  have hstep (c : Char) (rest : List Char) :
      ((dashed c.isAlpha rest).map size).sum =
        (rest.map size).sum + capitalsInside (c :: rest) := by
    induction rest generalizing c with
    | nil => rfl
    | cons d rest ih =>
        rw [dashed_cons_eq, List.map_append, List.map_cons, List.sum_append, List.sum_cons,
          ih, capitalsInside_cons_cons, hlower, List.map_cons, List.sum_cons]
        split
        · simp only [List.map_cons, List.map_nil, List.sum_singleton, hdash]
          omega
        · simp only [List.map_nil, List.sum_nil]
          omega
  cases s with
  | nil => rfl
  | cons c rest =>
      rw [dashed_cons_eq, Bool.false_and, if_neg Bool.false_ne_true, List.nil_append,
        List.map_cons, List.sum_cons, hstep, hlower, List.map_cons, List.sum_cons, Nat.add_assoc]

theorem utf8Len_eq_sum (s : List Char) : String.utf8Len s = (s.map Char.utf8Size).sum := by
  induction s with
  | nil => rfl
  | cons c rest ih => rw [String.utf8Len_cons, ih, List.map_cons, List.sum_cons, Nat.add_comm]

theorem utf8Size_of_isAlpha {c : Char} (h : c.isAlpha = true) : c.utf8Size = 1 := by
  rw [Char.utf8Size_eq_one_iff]
  simp only [Char.isAlpha, Char.isUpper, Char.isLower, Bool.or_eq_true, Bool.and_eq_true,
    decide_eq_true_eq, UInt32.le_iff_toNat_le, ge_iff_le] at h
  have hupper : 'Z'.val.toNat = 90 := rfl
  have hlower : 'z'.val.toNat = 122 := rfl
  have hlast : (127 : UInt32).toNat = 127 := rfl
  rw [UInt32.le_iff_toNat_le]
  omega

theorem utf8Size_toLower (c : Char) : c.toLower.utf8Size = c.utf8Size := by
  by_cases hupper : c.isUpper = true
  · have hletter : c.isAlpha = true := by simp [Char.isAlpha, hupper]
    have hlower : c.toLower.isAlpha = true := by rw [Char.isAlpha_toLower_eq_isAlpha, hletter]
    rw [utf8Size_of_isAlpha hletter, utf8Size_of_isAlpha hlower]
  · rw [Char.toLower_eq_of_not_isUpper hupper]

theorem toLower_ne_dash {c : Char} (h : c ≠ '-') : c.toLower ≠ '-' := by
  by_cases hupper : c.isUpper = true
  · intro hdash
    have hlower := Char.isLower_toLower_eq_isAlpha c
    rw [hdash, Char.isAlpha, hupper] at hlower
    cases hlower
  · rwa [Char.toLower_eq_of_not_isUpper hupper]

theorem filter_dashed (afterLetter : Bool) (s : List Char) :
    (dashed afterLetter s).filter (· != '-') = (s.filter (· != '-')).map Char.toLower := by
  induction s generalizing afterLetter with
  | nil => rfl
  | cons c rest ih =>
      have hdash : (if afterLetter && c.isUpper then ['-'] else []).filter (· != '-') = [] := by
        split <;> rfl
      rw [dashed_cons_eq, List.filter_append, hdash, List.nil_append]
      by_cases hc : c = '-'
      · subst hc
        exact ih _
      · have hlower := toLower_ne_dash hc
        simp [hc, hlower, ih]

/-- The dashed spelling of any text. Each character keeps its place; a capital becomes a
small letter, with a dash in front just when a letter stands right before it. So there are
no capitals left, each capital right behind a letter adds one to the length (in characters
and in bytes), without any dashes the two texts differ in nothing but the case, and the
dashed spelling is dashed already. -/
theorem dasherize_eq (s : String) :
    (dasherize s).toList =
        (List.zipWith dashedPiece (none :: s.toList.map some) s.toList).flatten ∧
      (∀ c ∈ (dasherize s).toList, c.isUpper = false) ∧
      (dasherize s).length = s.length + capitalsInside s.toList ∧
      (dasherize s).utf8ByteSize = s.utf8ByteSize + capitalsInside s.toList ∧
      (dasherize s).toList.filter (· != '-') = (s.toList.filter (· != '-')).map Char.toLower ∧
      dasherize (dasherize s) = dasherize s := by
  have hlist : (dasherize s).toList = dashed false s.toList := String.toList_ofList
  have hbytes : s.utf8ByteSize = String.utf8Len s.toList := by
    rw [← String.utf8ByteSize_ofList, String.ofList_toList]
  rw [hlist]
  refine ⟨dashed_eq_flatten none s.toList, fun c hc => isUpper_of_mem_dashed hc, ?_, ?_,
    filter_dashed false s.toList, ?_⟩
  · have hsum := @sum_dashed (fun _ => 1) rfl (fun _ => rfl) s.toList
    rw [← String.length_toList, hlist, ← String.length_toList]
    simpa using hsum
  · rw [dasherize, String.utf8ByteSize_ofList, hbytes, utf8Len_eq_sum, utf8Len_eq_sum]
    exact sum_dashed rfl utf8Size_toLower s.toList
  · rw [dasherize, hlist, dashed_dashed, dasherize]

/-- A capital behind a capital gets a dash, and one behind a dot or a digit does not. -/
example : dasherize "Ui.XMLHttp2Go" = "ui.x-m-l-http2go" := by decide

section Letters

variable {s t : List Char}

theorem dashed_true_eq_cons (h : s.head?.any Char.isUpper = true) :
    dashed true s = '-' :: dashed false s := by
  cases s with
  | nil => cases h
  | cons c rest =>
      have hupper : c.isUpper = true := h
      rw [dashed_cons_eq, dashed_cons_eq, hupper]
      rfl

/-- Reads letters back from their dashed spelling. A dash announces a capital. -/
def undashed : List Char → List Char
  | [] => []
  | '-' :: c :: rest => c.toUpper :: undashed rest
  | c :: rest => c :: undashed rest

theorem undashed_cons {c : Char} (h : c ≠ '-') (rest : List Char) :
    undashed (c :: rest) = c :: undashed rest := by
  simp [undashed, h]

theorem undashed_dashed (hs : ∀ c ∈ s, c.isAlpha = true) : undashed (dashed true s) = s := by
  induction s with
  | nil => rfl
  | cons c rest ih =>
      obtain ⟨hletter, hrest⟩ := List.forall_mem_cons.mp hs
      rw [dashed_cons_eq, hletter]
      by_cases hupper : c.isUpper = true
      · have hcase : c.toLower.toUpper = c := by
          rw [Char.toUpper_toLower_eq_toUpper,
            Char.toUpper_eq_of_not_isLower (Char.not_isLower_of_isUpper hupper)]
        rw [hupper]
        exact congrArg₂ List.cons hcase (ih hrest)
      · have hdash : c ≠ '-' := by
          rintro rfl
          cases hletter
        rw [Bool.eq_false_iff.mpr hupper, Char.toLower_eq_of_not_isUpper hupper]
        exact (undashed_cons hdash _).trans (congrArg _ (ih hrest))

/-- Words of letters that start with a capital have different dashed spellings. -/
theorem dashed_inj (hs : ∀ c ∈ s, c.isAlpha = true) (ht : ∀ c ∈ t, c.isAlpha = true)
    (hscapital : s.head?.any Char.isUpper = true) (htcapital : t.head?.any Char.isUpper = true) :
    dashed false s = dashed false t ↔ s = t := by
  refine ⟨fun h => ?_, fun h => h ▸ rfl⟩
  rw [← undashed_dashed hs, ← undashed_dashed ht, dashed_true_eq_cons hscapital,
    dashed_true_eq_cons htcapital, h]

theorem count_dash_dashed (hs : ∀ c ∈ s, c.isAlpha = true) :
    (dashed true s).count '-' = s.countP Char.isUpper := by
  induction s with
  | nil => rfl
  | cons c rest ih =>
      obtain ⟨hletter, hrest⟩ := List.forall_mem_cons.mp hs
      have hdash : c ≠ '-' := by
        rintro rfl
        cases hletter
      have hlower := toLower_ne_dash hdash
      rw [dashed_cons_eq, hletter, List.count_append, List.count_cons_of_ne hlower, ih hrest,
        List.countP_cons, Nat.add_comm]
      cases c.isUpper <;> rfl

/-- The dashed spelling has a dash when there is a second capital. -/
theorem dash_mem_dashed_iff (hs : ∀ c ∈ s, c.isAlpha = true)
    (hcapital : s.head?.any Char.isUpper = true) :
    '-' ∈ dashed false s ↔ 2 ≤ s.countP Char.isUpper := by
  have hcount := count_dash_dashed hs
  rw [dashed_true_eq_cons hcapital, List.count_cons_self] at hcount
  rw [← List.count_pos_iff, ← hcount]
  omega

end Letters

end Text

end CurlyTemplate
