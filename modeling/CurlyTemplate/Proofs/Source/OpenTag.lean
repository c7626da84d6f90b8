import CurlyTemplate.Syntax.Source

/-!
# Open tags

Whether an element is closed at once is told by the first `>` of its text. Where no
attribute value holds a `>`, this is the one that ends the open tag. A value in quotes may
hold one, though, and then the first of these decides in its place, so that a tag written
`<Foo a="/>">` counts as closed. `OpenTag.closesAtOnce_text` says which one it is.
-/

namespace CurlyTemplate

/-- An attribute with its value in quotes, as it was written. -/
structure WrittenAttribute where
  blanks : List Char
  name : List Char
  value : List Char
  blanks_ne_nil : blanks ≠ []
  isBlank_blanks : ∀ c ∈ blanks, Text.isBlank c = true
  name_plain : ∀ c ∈ name, Text.isBlank c = false ∧ c ∉ ['=', '/', '>', '"']
  quote_not_mem_value : '"' ∉ value

/-- A tag up to the blanks before its end. -/
structure OpenTag where
  name : List Char
  attributes : List WrittenAttribute
  blanks : List Char
  name_ne_nil : name ≠ []
  name_plain : ∀ c ∈ name, Text.isBlank c = false ∧ c ∉ ['/', '>', '"']
  isBlank_blanks : ∀ c ∈ blanks, Text.isBlank c = true

/-- How an open tag ends, and what stands behind it. -/
inductive TagEnding where
  | slash
  | bracket (behind : List Char)
deriving DecidableEq

def TagEnding.text : TagEnding → List Char
  | .slash => ['/', '>']
  | .bracket behind => '>' :: behind

def TagEnding.isSlash : TagEnding → Bool
  | .slash => true
  | .bracket _ => false

/-- An attribute up to its value and the quote behind. -/
def WrittenAttribute.opening (a : WrittenAttribute) : List Char :=
  a.blanks ++ a.name ++ ['=', '"']

def WrittenAttribute.text (a : WrittenAttribute) : List Char := a.opening ++ a.value ++ ['"']

def OpenTag.text (t : OpenTag) : List Char :=
  '<' :: t.name ++ t.attributes.flatMap WrittenAttribute.text ++ t.blanks

/-- What the first `>` tells: that of the first value that holds one, else the last one. -/
def OpenTag.closes (t : OpenTag) (ending : TagEnding) : Bool :=
  match t.attributes.find? (·.value.contains '>') with
  | some a => (a.value.takeWhile (· ≠ '>')).getLast? == some '/'
  | none => ending.isSlash

theorem forall_ne_bracket {s : List Char} (h : '>' ∉ s) : ∀ c ∈ s, decide (c ≠ '>') = true := by
  intro c hc
  refine decide_eq_true ?_
  rintro rfl
  exact h hc

theorem takeWhile_append_bracket {s : List Char} (h : '>' ∉ s) (t : List Char) :
    (s ++ '>' :: t).takeWhile (· ≠ '>') = s := by
  rw [List.takeWhile_append_of_pos (forall_ne_bracket h)]
  simp

theorem closesAtOnce_append {s : List Char} (h : '>' ∉ s) (t : List Char) :
    Source.closesAtOnce (s ++ '>' :: t) = (s.getLast? == some '/') := by
  have hdrop : (s ++ '>' :: t).dropWhile (· ≠ '>') = '>' :: t := by
    rw [List.dropWhile_append_of_pos (forall_ne_bracket h)]
    simp
  rw [Source.closesAtOnce, hdrop, takeWhile_append_bracket h]

theorem bracket_not_mem_of_isBlank {s : List Char} (h : ∀ c ∈ s, Text.isBlank c = true) :
    '>' ∉ s := by
  intro hmem
  cases h '>' hmem

theorem slash_not_mem_of_isBlank {s : List Char} (h : ∀ c ∈ s, Text.isBlank c = true) :
    '/' ∉ s := by
  intro hmem
  cases h '/' hmem

theorem getLast?_ne_of_not_mem {s : List Char} {c : Char} (h : c ∉ s) : s.getLast? ≠ some c :=
  fun hlast => h (List.mem_of_getLast? hlast)

theorem getLast?_append_ne {s t : List Char} {c : Char} (hs : s.getLast? ≠ some c)
    (ht : t.getLast? ≠ some c) : (s ++ t).getLast? ≠ some c := by
  intro h
  rw [List.getLast?_append, Option.or_eq_some_iff] at h
  rcases h with h | ⟨-, h⟩
  · exact ht h
  · exact hs h

namespace WrittenAttribute

variable (a : WrittenAttribute)

theorem bracket_not_mem_opening : '>' ∉ a.opening := by
  have hblanks := bracket_not_mem_of_isBlank a.isBlank_blanks
  have hname : '>' ∉ a.name := fun h => (a.name_plain _ h).2 (by simp)
  simp [opening, hblanks, hname]

theorem bracket_not_mem_text (h : '>' ∉ a.value) : '>' ∉ a.text := by
  have hopening := a.bracket_not_mem_opening
  simp [text, hopening, h]

theorem getLast?_text_ne : a.text.getLast? ≠ some '/' := by
  simp [text]

end WrittenAttribute

theorem getLast?_flatMap_text_ne (attributes : List WrittenAttribute) :
    (attributes.flatMap WrittenAttribute.text).getLast? ≠ some '/' := by
  induction attributes with
  | nil => simp
  | cons a rest ih => exact getLast?_append_ne a.getLast?_text_ne ih

theorem bracket_not_mem_flatMap_text {attributes : List WrittenAttribute}
    (h : ∀ a ∈ attributes, '>' ∉ a.value) : '>' ∉ attributes.flatMap WrittenAttribute.text := by
  rw [List.mem_flatMap]
  rintro ⟨a, ha, hmem⟩
  exact a.bracket_not_mem_text (h a ha) hmem

namespace OpenTag

variable (t : OpenTag)

theorem bracket_not_mem_start : '>' ∉ '<' :: t.name := by
  have hname : '>' ∉ t.name := fun h => (t.name_plain _ h).2 (by simp)
  simp [hname]

theorem getLast?_text_ne : t.text.getLast? ≠ some '/' := by
  have hname : '/' ∉ '<' :: t.name := by
    have hmem : '/' ∉ t.name := fun h => (t.name_plain _ h).2 (by simp)
    simp [hmem]
  have hblanks := slash_not_mem_of_isBlank t.isBlank_blanks
  exact getLast?_append_ne
    (getLast?_append_ne (getLast?_ne_of_not_mem hname) (getLast?_flatMap_text_ne t.attributes))
    (getLast?_ne_of_not_mem hblanks)

variable {t}

theorem closesAtOnce_of_plain (h : ∀ a ∈ t.attributes, '>' ∉ a.value) (ending : TagEnding) :
    Source.closesAtOnce (t.text ++ ending.text) = ending.isSlash := by
  have hblanks := bracket_not_mem_of_isBlank t.isBlank_blanks
  have htext : '>' ∉ t.text := by
    simp only [text, List.mem_append, not_or]
    exact ⟨⟨t.bracket_not_mem_start, bracket_not_mem_flatMap_text h⟩, hblanks⟩
  cases ending with
  | slash =>
      have hslash : '>' ∉ t.text ++ ['/'] := by simp [htext]
      have happend : t.text ++ TagEnding.slash.text = (t.text ++ ['/']) ++ '>' :: [] := by
        simp [TagEnding.text]
      rw [happend, closesAtOnce_append hslash]
      simp [TagEnding.isSlash]
  | bracket behind =>
      rw [TagEnding.text, closesAtOnce_append htext, TagEnding.isSlash]
      simpa using t.getLast?_text_ne

theorem closesAtOnce_of_bracket {before after : List WrittenAttribute} {a : WrittenAttribute}
    (ht : t.attributes = before ++ a :: after) (hbefore : ∀ b ∈ before, '>' ∉ b.value)
    (ha : '>' ∈ a.value) (ending : TagEnding) :
    Source.closesAtOnce (t.text ++ ending.text) =
      ((a.value.takeWhile (· ≠ '>')).getLast? == some '/') := by
  obtain ⟨head, tail, hvalue, hhead⟩ := List.eq_append_cons_of_mem ha
  have hopening := a.bracket_not_mem_opening
  let front := '<' :: t.name ++ before.flatMap WrittenAttribute.text ++ a.opening
  have hfront : '>' ∉ front ++ head := by
    simp only [front, List.mem_append, not_or]
    exact ⟨⟨⟨t.bracket_not_mem_start, bracket_not_mem_flatMap_text hbefore⟩, hopening⟩, hhead⟩
  have htext : t.text ++ ending.text = front ++ head ++ '>' ::
      (tail ++ ['"'] ++ after.flatMap WrittenAttribute.text ++ t.blanks ++ ending.text) := by
    simp [text, ht, WrittenAttribute.text, hvalue, front]
  have hquote : front.getLast? = some '"' := by
    simp only [front, WrittenAttribute.opening, List.getLast?_append]
    rfl
  rw [htext, closesAtOnce_append hfront, hvalue, takeWhile_append_bracket hhead,
    List.getLast?_append, hquote]
  cases head.getLast? <;> rfl

/-- The first bracket of a text that starts with an open tag. -/
theorem closesAtOnce_text (t : OpenTag) (ending : TagEnding) :
    Source.closesAtOnce (t.text ++ ending.text) = t.closes ending := by
  rw [closes]
  cases hfind : t.attributes.find? (·.value.contains '>') with
  | none =>
      rw [List.find?_eq_none] at hfind
      exact closesAtOnce_of_plain (fun a ha => by simpa using hfind a ha) ending
  | some a =>
      obtain ⟨ha, before, after, ht, hbefore⟩ := List.find?_eq_some_iff_append.mp hfind
      exact closesAtOnce_of_bracket ht (fun b hb => by simpa using hbefore b hb)
        (by simpa using ha) ending

theorem closes_of_plain {t : OpenTag} (h : ∀ a ∈ t.attributes, '>' ∉ a.value)
    (ending : TagEnding) : t.closes ending = ending.isSlash := by
  rw [← closesAtOnce_text, closesAtOnce_of_plain h]

end OpenTag

theorem TagEnding.isSlash_iff {ending : TagEnding} : ending.isSlash = true ↔ ending = .slash := by
  cases ending <;> simp [isSlash]

end CurlyTemplate
