import CurlyTemplate.Proofs.Lowering.Places
import CurlyTemplate.Proofs.Source.OpenTag

/-!
# Elements closed at once

A component becomes a mustache when it counts as closed at once, and its children are gone
then. Where nothing but its text tells, it counts as closed just when its open tag was
written so, as long as no attribute value holds a `>` (`selfClosing_of_openTag`); a tag
written `<Foo a="/>">` counts as closed as well (`not_closesAsWritten_quoted`).
-/

namespace CurlyTemplate

namespace Component

open Source (ofText)

variable {source : Source} {e : Element} {t : OpenTag} {ending : TagEnding}

theorem selfClosing_eq_closes (hrecorded : e.selfClosing = none)
    (htext : source.textOf? e.loc = some (t.text ++ ending.text)) :
    source.selfClosing e = t.closes ending := by
  rw [← OpenTag.closesAtOnce_text]
  simp only [Source.selfClosing, hrecorded, htext]

/-- How an element was closed, when nothing but its text tells. Where no attribute value
holds a bracket it is closed at once just when its tag was written so; else the first
bracket inside of a value decides. A component that counts as closed at once becomes a
mustache and its children are gone; any other becomes a block around its children. -/
theorem selfClosing_of_openTag (source : Source) (e : Element) (t : OpenTag) (ending : TagEnding)
    (hrecorded : e.selfClosing = none)
    (htext : source.textOf? e.loc = some (t.text ++ ending.text)) :
    source.selfClosing e = t.closes ending ∧
      ((∀ a ∈ t.attributes, '>' ∉ a.value) → (source.selfClosing e = true ↔ ending = .slash)) ∧
      ∀ p scope y, Facing p (lower source p) scope (.element e) y →
        isComponent source scope e = true →
          (t.closes ending = true → ∃ m, y = .mustache m) ∧
          (t.closes ending = false → ∃ call, y = .block (Build.block call
            (Build.program (e.children.map (Statement.lowered source (scope.push e.blockParams)))
              e.blockParams) none e.loc)) := by
  have hclosing := selfClosing_eq_closes hrecorded htext
  refine ⟨hclosing, fun hplain => ?_, fun p scope y hy hcomponent => ?_⟩
  · rw [hclosing, OpenTag.closes_of_plain hplain, TagEnding.isSlash_iff]
  · rw [hy.eq_lowered, ← hclosing]
    rcases form_of_isComponent hcomponent with ⟨hclosed, call, hform⟩ | ⟨hopen, call, hform⟩
    · rw [hclosed, Statement.lowered_inline hform]
      exact ⟨fun _ => ⟨_, rfl⟩, nofun⟩
    · rw [hopen, Statement.lowered_around hform]
      exact ⟨nofun, fun _ => ⟨call, rfl⟩⟩

/-- `<Foo a="…"` -/
def fooTag (value : List Char) (h : '"' ∉ value) : OpenTag where
  name := "Foo".toList
  attributes := [⟨[' '], ['a'], value, by simp, by simp [Text.isBlank], by simp [Text.isBlank], h⟩]
  blanks := []
  name_ne_nil := by decide
  name_plain := by simp [Text.isBlank]
  isBlank_blanks := by simp

/-- An element of one line, with text in it. -/
def fooElement (length : Nat) : Element :=
  { Build.element "Foo" (.between ⟨1, 0⟩ ⟨1, length⟩) with children := [.text (Build.text "x")] }

/-- The first bracket stands in a value, behind no slash. -/
theorem selfClosing_of_openTag_greater :
    let source := ofText (some "<Foo a=\"1>0\">x</Foo>")
    let e := fooElement 20
    let ending := TagEnding.bracket "x</Foo>".toList
    let p := Build.program [.element e] []
    e.selfClosing = none ∧
      source.textOf? e.loc = some ((fooTag "1>0".toList (by decide)).text ++ ending.text) ∧
      isComponent source .empty e = true ∧ source.selfClosing e = false ∧
      ∃ call, Facing p (lower source p) .empty (.element e) (.block (Build.block call
        (Build.program [.text (Build.text "x")] []) none e.loc)) := by
  intro source e ending p
  have htext : source.textOf? e.loc =
      some ((fooTag "1>0".toList (by decide)).text ++ ending.text) := by decide
  have hopen : (fooTag "1>0".toList (by decide)).closes ending = false := by decide
  have hcomponent : isComponent source .empty e = true := by decide
  have hplace : Facing p (lower source p) .empty (.element e)
      ((Statement.element e).lowered source .empty) := .body_lower (List.mem_singleton_self _)
  have hmain := selfClosing_of_openTag source e _ ending rfl htext
  obtain ⟨call, hblock⟩ := (hmain.2.2 p _ _ hplace hcomponent).2 hopen
  rw [hblock] at hplace
  exact ⟨rfl, htext, hcomponent, hmain.1.trans hopen, call, hplace⟩

/-- An element is closed at once just when its open tag was written so. -/
def ClosesAsWritten (source : Source) (e : Element) : Prop :=
  ∀ (t : OpenTag) (ending : TagEnding), e.selfClosing = none →
    source.textOf? e.loc = some (t.text ++ ending.text) →
      (source.selfClosing e = true ↔ ending = .slash)

theorem not_closesAsWritten_quoted :
    ¬ ClosesAsWritten (ofText (some "<Foo a=\"/>\">x</Foo>")) (fooElement 19) := by
  intro h
  have hiff := h (fooTag "/>".toList (by decide)) (.bracket "x</Foo>".toList) rfl (by decide)
  have hclosed : (ofText (some "<Foo a=\"/>\">x</Foo>")).selfClosing (fooElement 19) = true := by
    decide
  cases hiff.mp hclosed

end Component

end CurlyTemplate
