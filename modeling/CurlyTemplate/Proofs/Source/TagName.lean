import CurlyTemplate.Component.Invocation
import CurlyTemplate.Proofs.Source.Locating

/-!
# Tags as they were written

A parser may have changed the tag of an element and kept no note of how the element was
closed. Where the span of the element is right, its text makes up for both: the name of
the tag is read back as it was written, and the element stands for what it would stand
for if the parser had recorded the tag and the way it was closed
(`classify_eq_of_covers`).
-/

namespace CurlyTemplate

/-- The text of an element: a bracket, the name of the tag, and the rest from the first
character that ends the name up to a last bracket. -/
structure ElementText where
  name : List Char
  rest : List Char
  head_name : name.head?.any Text.isTagStart = true
  isTagEnd_name : ∀ c ∈ name, Text.isTagEnd c = false
  head_rest : rest.head?.any Text.isTagEnd = true
  last_rest : rest.getLast? = some '>'

namespace ElementText

def text (t : ElementText) : List Char := '<' :: (t.name ++ t.rest)

/-- An element begins and ends with a bracket, so that no line end reaches into it. -/
theorem not_meetInLineEnd_text (t : ElementText) (before : List Char) :
    ¬ MeetInLineEnd before t.text := by
  rintro ⟨-, hhead⟩
  cases hhead

theorem not_meetInLineEnd_append_text (t : ElementText) (before behind : List Char) :
    ¬ MeetInLineEnd (before ++ t.text) behind := by
  rintro ⟨hlast, -⟩
  have hrest : (before ++ t.text).getLast? = some '>' := by
    simp [text, List.getLast?_append, List.getLast?_cons, t.last_rest]
  rw [hrest] at hlast
  cases hlast

end ElementText

theorem not_lineEnd_of_isTagEnd_eq_false {c : Char} (h : Text.isTagEnd c = false) :
    ¬ (c = '\r' ∨ c = '\n') := by
  rintro (rfl | rfl) <;> simp [Text.isTagEnd, Text.isBlank] at h

theorem unifyLineEnds_append {s : List Char} (h : ∀ c ∈ s, ¬ (c = '\r' ∨ c = '\n'))
    (t : List Char) : unifyLineEnds (s ++ t) = s ++ unifyLineEnds t := by
  induction s with
  | nil => rfl
  | cons c rest ih =>
      rw [List.forall_mem_cons] at h
      rw [List.cons_append, unifyLineEnds_char h.1, ih h.2, List.cons_append]

/-- What ends a name still does when line ends are written as line feeds. -/
theorem head_unifyLineEnds {s : List Char} (h : s.head?.any Text.isTagEnd = true) :
    (unifyLineEnds s).head?.any Text.isTagEnd = true := by
  induction s using lineInduction with
  | nil => exact h
  | pair s _ => rfl
  | single c s hc hmeet _ =>
      rw [unifyLineEnds_single hc hmeet]
      rfl
  | char c s hc _ =>
      rw [unifyLineEnds_char hc]
      exact h

namespace ElementText

/-- The same text with every line end written as a line feed. -/
theorem unifyLineEnds_text (t : ElementText) :
    unifyLineEnds t.text = '<' :: (t.name ++ unifyLineEnds t.rest) := by
  have hname : ∀ c ∈ '<' :: t.name, ¬ (c = '\r' ∨ c = '\n') := by
    rw [List.forall_mem_cons]
    refine ⟨by decide, fun c hc => ?_⟩
    exact not_lineEnd_of_isTagEnd_eq_false (t.isTagEnd_name c hc)
  exact unifyLineEnds_append hname t.rest

/-- The name is cut out of the text whatever stands behind it. -/
theorem tagIn_append (t : ElementText) {rest : List Char}
    (hrest : rest.head?.any Text.isTagEnd = true) :
    Source.tagIn ('<' :: (t.name ++ rest)) = t.name := by
  have hskip : (t.name ++ rest).dropWhile (!Text.isTagStart ·) = t.name ++ rest := by
    have hstart := t.head_name
    cases hname : t.name with
    | nil => simp [hname] at hstart
    | cons c more =>
        have hc : Text.isTagStart c = true := by simpa [hname] using hstart
        simp [hc]
  have hinside : ∀ c ∈ t.name, (!Text.isTagEnd c) = true := by
    intro c hc
    rw [t.isTagEnd_name c hc]
    rfl
  have hstop : rest.takeWhile (!Text.isTagEnd ·) = [] := by
    cases rest with
    | nil => rfl
    | cons c more =>
        have hc : Text.isTagEnd c = true := by simpa using hrest
        simp [hc]
  rw [Source.tagIn, List.drop_one, List.tail_cons, hskip, List.takeWhile_append_of_pos hinside,
    hstop, List.append_nil]

end ElementText

namespace Component

open Source (ofText)

variable {before : List Char} {t : ElementText} {e : Element}

theorem tagName_of_covers (h : e.loc.Covers before t.text) (behind : List Char) :
    (ofText (some (String.ofList (before ++ t.text ++ behind)))).tagName e = t.name := by
  have hne : before ++ t.text ++ behind ≠ [] := by simp [ElementText.text]
  have htext := Source.textOf?_ofText h hne (t.not_meetInLineEnd_text before)
    (t.not_meetInLineEnd_append_text before behind)
  have htag : Source.tagIn (unifyLineEnds t.text) = t.name := by
    rw [t.unifyLineEnds_text]
    exact t.tagIn_append (head_unifyLineEnds t.head_rest)
  simp only [Source.tagName, htext, htag]
  split
  case h_1 hname =>
    have hstart := t.head_name
    simp [hname] at hstart
  case h_2 => rfl

/-- An element whose span covers its text stands for what it would stand for without a text,
had its tag been recorded as it was written and the way it is closed as the text tells. -/
theorem classify_eq_of_covers (before behind : List Char) (t : ElementText) (e : Element)
    (h : e.loc.Covers before t.text) :
    let source := ofText (some (String.ofList (before ++ t.text ++ behind)))
    source.tagName e = t.name ∧
      ∀ scope, classify source scope e =
        classify .unavailable scope
          { e with tag := String.ofList t.name, selfClosing := some (source.selfClosing e) } := by
  intro source
  have htag : source.tagName e = t.name := tagName_of_covers h behind
  refine ⟨htag, fun scope => ?_⟩
  have hwritten : classify source scope e =
      classifyTag scope t.name (source.selfClosing e) (hasSplat e) := by
    rw [classify, htag]
  have hrecorded : classify .unavailable scope
      { e with tag := String.ofList t.name, selfClosing := some (source.selfClosing e) } =
        classifyTag scope (String.ofList t.name).toList (source.selfClosing e) (hasSplat e) := rfl
  rw [hwritten, hrecorded, String.toList_ofList]

/-- `<FooBar` at the end of a line and `/>` at the start of the next, line ends of two
characters all around. -/
def brokenTag : ElementText where
  name := "FooBar".toList
  rest := "\r\n/>".toList
  head_name := by decide
  isTagEnd_name := by simp [Text.isTagEnd, Text.isBlank]
  head_rest := by decide
  last_rest := by decide

theorem classify_eq_of_covers_brokenTag :
    let e := Build.element "fooBar" (.between ⟨2, 1⟩ ⟨3, 2⟩)
    let source := ofText (some "a\r\n <FooBar\r\n/>\rb")
    e.loc.Covers "a\r\n ".toList brokenTag.text ∧ source.tagName e = "FooBar".toList ∧
      ∀ scope, classify source scope e =
        classify .unavailable scope { e with tag := "FooBar", selfClosing := some true } := by
  intro e source
  have h : e.loc.Covers "a\r\n ".toList brokenTag.text := ⟨rfl, by decide, by decide⟩
  have hclosing : source.selfClosing e = true := by decide
  have hmain := classify_eq_of_covers "a\r\n ".toList "\rb".toList brokenTag e h
  exact ⟨h, hmain.1, fun scope => hclosing ▸ hmain.2 scope⟩

end Component

end CurlyTemplate
