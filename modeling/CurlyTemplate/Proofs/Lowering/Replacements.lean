import CurlyTemplate.Proofs.Lowering.Simulation
import CurlyTemplate.Proofs.Traversal.Recording
import CurlyTemplate.Proofs.Traversal.Termination

/-!
# The replacements of a lowering

Lowering replaces nothing but elements, and what it puts in their place is no element, so
it stays when it is shown in its turn. The elements that are shown are elements of the
tree from the start, each of them shown once. So there is one replacement for each element
at most, and the run ends (`traverse_terminates`), without a budget that it could run out
of.
-/

namespace CurlyTemplate

open Component (Scope lowering lowerElement classify form form_cases lowerElement_classify
  children_of_form_markup loweringDepth traverse_lowering)

namespace Visitor

def replacement? : Action → Option Statement
  | .replace y => some y
  | _ => none

/-- What was put in the place of something else. -/
def replacements (answers : List (Statement × Action)) : List Statement :=
  answers.filterMap fun answer => replacement? answer.2

/-- The elements that were shown. -/
def shownElements (answers : List (Statement × Action)) : List Element :=
  answers.filterMap fun answer => answer.1.element?

theorem shownElements_append (answers others : List (Statement × Action)) :
    shownElements (answers ++ others) = shownElements answers ++ shownElements others :=
  List.filterMap_append

theorem shownElements_cons (x : Statement) (action : Action) (rest : List (Statement × Action)) :
    shownElements ((x, action) :: rest) = x.element?.toList ++ shownElements rest := by
  rw [shownElements, List.filterMap_cons]
  cases x.element? <;> rfl

/-- Only elements are replaced, and what is put in the place of one is none: it is shown
next, and stays. All else stays in the first place. -/
inductive Settled : List (Statement × Action) → Prop
  | nil : Settled []
  | kept {x : Statement} {rest : List (Statement × Action)} (h : Settled rest) :
      Settled ((x, .keep) :: rest)
  | replaced {e : Element} {y : Statement} {rest : List (Statement × Action)}
      (hy : y.element? = none) (h : Settled rest) :
      Settled ((.element e, .replace y) :: (y, .keep) :: rest)

variable {answers others : List (Statement × Action)}

theorem Settled.append (h : Settled answers) (hothers : Settled others) :
    Settled (answers ++ others) := by
  induction h with
  | nil => exact hothers
  | kept _ ih => exact .kept ih
  | replaced hy _ ih => exact .replaced hy ih

theorem Settled.length_replacements_le (h : Settled answers) :
    (replacements answers).length ≤ (shownElements answers).length := by
  induction h with
  | nil => exact Nat.le_refl _
  | @kept x rest _ ih =>
      have hnone : replacements ((x, .keep) :: rest) = replacements rest := rfl
      rw [hnone, shownElements_cons, List.length_append]
      exact Nat.le_add_left_of_le ih
  | @replaced e y rest hy _ ih =>
      have hone : replacements ((.element e, .replace y) :: (y, .keep) :: rest) =
          y :: replacements rest := rfl
      rw [hone, shownElements_cons, shownElements_cons, hy]
      exact Nat.succ_le_succ ih

end Visitor

namespace Component

open Visitor (Event Law OnInverse Settled answers answers_append answers_shown shownElements
  shownElements_append shownElements_cons replacements traverse_mono keeping)

variable {source : Source} {scope : Scope}

/-- An element stays and keeps its children, or gives way to a call, with the children inside
or without. -/
theorem lowerElement_cases (source : Source) (scope : Scope) (e : Element) :
    (∃ kept, kept.children = e.children ∧
      lowerElement e (classify source scope e) = (.keep, kept)) ∨
    ∃ y left, y.isShown = true ∧ y.element? = none ∧ (y.parts = [] ∨ y.parts = e.children) ∧
      lowerElement e (classify source scope e) = (.replace y, left) := by
  have hlower := lowerElement_classify source scope e
  cases hform : form source scope e with
  | markup kept =>
      simp only [hform] at hlower
      exact .inl ⟨kept, children_of_form_markup hform, hlower⟩
  | inline call =>
      simp only [hform] at hlower
      exact .inr ⟨_, _, rfl, rfl, .inl rfl, Prod.ext hlower rfl⟩
  | around call =>
      simp only [hform] at hlower
      exact .inr ⟨_, _, rfl, rfl, .inr (List.append_nil _), Prod.ext hlower rfl⟩

theorem hook_lowering_replace {x y left : Statement} {s t : Scope}
    (h : (lowering source).hook x s = ((.replace y, left), t)) :
    ∃ e, x = .element e ∧ y.isShown = true ∧ y.element? = none ∧
      (y.parts = [] ∨ y.parts = e.children) := by
  cases x with
  | element e =>
      rw [hook_lowering_element] at h
      rcases lowerElement_cases source s e with ⟨kept, -, hkeep⟩ | ⟨z, k, hshown, hnone, hparts, hz⟩
      · rw [hkeep] at h
        cases h
      · rw [hz] at h
        cases h
        exact ⟨e, rfl, hshown, hnone, hparts⟩
  | mustache | block | text | comment | mustacheComment => cases h

theorem hook_lowering_ne_remove {x left : Statement} {s t : Scope} :
    (lowering source).hook x s ≠ ((.remove, left), t) := by
  intro h
  cases x with
  | element e =>
      rw [hook_lowering_element] at h
      rcases lowerElement_cases source s e with ⟨kept, -, hkeep⟩ | ⟨y, k, -, -, -, hy⟩
      · rw [hkeep] at h
        cases h
      · rw [hy] at h
        cases h
  | mustache | block | text | comment | mustacheComment => cases h

theorem children_of_lowering_keep {e k : Element} {s t : Scope}
    (h : (lowering source).element e s = ((.keep, k), t)) : k.children = e.children := by
  have hanswer : lowerElement e (classify source s e) = (.keep, k) := congrArg Prod.fst h
  rcases lowerElement_cases source s e with ⟨kept, hchildren, hkeep⟩ | ⟨y, left, -, -, -, hy⟩
  · cases hkeep.symm.trans hanswer
    exact hchildren
  · cases hy.symm.trans hanswer

/-- The answers during the visit of some statements, which hold some elements. -/
structure Answered (calls : List Event) (elements : List Element) : Prop where
  settled : Settled (answers calls)
  elements : (shownElements (answers calls)).Sublist elements

theorem Answered.append {calls later : List Event} {elements others : List Element}
    (h : Answered calls elements) (hlater : Answered later others) :
    Answered (calls ++ later) (elements ++ others) := by
  constructor
  · rw [answers_append]
    exact h.settled.append hlater.settled
  · rw [answers_append, shownElements_append]
    exact h.elements.append hlater.elements

/-- The answers during the visit of a statement. What is no element is kept at once. -/
structure AnsweredFor (x : Statement) (calls : List Event) : Prop where
  answered : Answered calls x.elements
  kept : x.isShown = true → x.element? = none →
    ∃ later, calls = .shown x .keep :: later ∧ Answered later x.elements

theorem OnInverse.answered {inverse r : Option Program} {s t : Scope} {calls : List Event}
    (h : OnInverse (fun p _ _ _ calls => Answered calls p.elements) inverse s r t calls) :
    Answered calls (inverse.elim [] Program.elements) := by
  cases inverse with
  | none =>
      obtain ⟨-, -, rfl⟩ := h
      exact ⟨.nil, List.Sublist.refl _⟩
  | some p =>
      obtain ⟨q, -, hq⟩ := h
      exact hq

/-- Every visit during a lowering settles what it replaces. -/
def replacementLaw (source : Source) : Law (lowering source) where
  statement x _ _ _ calls := AnsweredFor x calls
  statements statements _ _ _ calls := Answered calls (statements.flatMap Statement.elements)
  program p _ _ _ calls := Answered calls p.elements
  nil _ := ⟨.nil, List.Sublist.refl _⟩
  cons hfirst hrest := hfirst.answered.append hrest
  body {p s body t calls} hbody := by
    rw [p.elements_eq]
    constructor
    · simpa using hbody.settled
    · simpa using hbody.elements
  unseen {x s} hx := by
    constructor
    · exact ⟨.nil, List.nil_sublist _⟩
    · intro hshown
      rw [hx] at hshown
      cases hshown
  element {e k s t children u calls} he hchildren := by
    rw [children_of_lowering_keep he] at hchildren
    constructor
    · constructor
      · exact .kept hchildren.settled
      · rw [Statement.elements_eq]
        exact hchildren.elements.cons_cons e
    · intro _ hnone
      cases hnone
  mustache {m k s t} _ := by
    have hnone : Answered [] (Statement.mustache m).elements := ⟨.nil, List.Sublist.refl _⟩
    constructor
    · exact ⟨.kept hnone.settled, hnone.elements⟩
    · intro _ _
      exact ⟨[], rfl, hnone⟩
  block {b k s t q u r w calls later} hb hprogram hinverse := by
    have hsame : k = b := (congrArg (fun answer => answer.1.2) hb).symm
    rw [hsame] at hprogram hinverse
    have hinside : Answered (calls ++ later) (Statement.block b).elements := by
      rw [Statement.elements_block]
      exact hprogram.append (OnInverse.answered hinverse)
    constructor
    · exact ⟨.kept hinside.settled, hinside.elements⟩
    · intro _ _
      exact ⟨_, rfl, hinside⟩
  replace {x y k s t left u calls} hx hy := by
    obtain ⟨e, rfl, hshown, hnone, hparts⟩ := hook_lowering_replace hx
    obtain ⟨later, rfl, hlater⟩ := hy.kept hshown hnone
    have hinside : (shownElements (answers later)).Sublist
        (e.children.flatMap Statement.elements) := by
      have helements : y.elements = y.parts.flatMap Statement.elements := by
        rw [y.elements_eq, hnone]
        rfl
      have hlater := hlater.elements
      rw [helements] at hlater
      rcases hparts with hparts | hparts
      · rw [hparts] at hlater
        exact hlater.trans (List.nil_sublist _)
      · rwa [hparts] at hlater
    constructor
    · constructor
      · exact .replaced hnone hlater.settled
      · rw [answers_shown, answers_shown, shownElements_cons, shownElements_cons, hnone,
          Statement.elements_element]
        exact hinside.cons_cons e
    · intro _ hnone
      cases hnone
  remove hx := absurd hx hook_lowering_ne_remove

/-- Every run of a visitor ends that adds no statements to what it keeps and pays for each
replacement out of a budget, however large the replacements are. A lowering ends from
`loweringDepth` on, whatever the source and the names in scope at the start. It shows each
element of the tree once at most, replaces nothing but elements that it shows, and keeps
what it has put in their place. -/
theorem traverse_terminates :
    (∀ (σ : Type) (v : Visitor σ) (budget : σ → Nat), v.Frugal budget → ∀ p s,
      ∃ depth r, ∀ more, v.traverse (depth + more) p s = some r) ∧
    ∀ (source : Source) (scope : Scope) (p : Program),
      (∀ more, (lowering source).traverse (loweringDepth p + more) p scope =
        some (p.lowered source scope, scope)) ∧
      ∃ log, (∀ more,
          (lowering source).recording.traverse (loweringDepth p + more) p (scope, []) =
            some (p.lowered source scope, scope, log)) ∧
        Settled (answers log) ∧
        (shownElements (answers log)).Sublist p.elements ∧
        (replacements (answers log)).length ≤ (shownElements (answers log)).length := by
  constructor
  · intro σ v budget hv p s
    exact hv.dwindles.traverse_ends p s
  · intro source scope p
    have hrun : ∀ more, (lowering source).traverse (loweringDepth p + more) p scope =
        some (p.lowered source scope, scope) :=
      fun more => traverse_lowering (Nat.le_add_right _ more)
    obtain ⟨log, hlaw, hrecorded⟩ := (replacementLaw source).traverse (hrun 0)
    refine ⟨hrun, log, fun more => ?_, hlaw.settled, hlaw.elements,
      hlaw.settled.length_replacements_le⟩
    exact traverse_mono (Nat.le_add_right _ more) (hrecorded [])

/-- Puts an element with two copies of an element inside in its place, as often as its state
says. -/
def doubling : Visitor Nat :=
  { keeping with
    element := fun e count =>
      match count with
      | 0 => ((.keep, e), 0)
      | rest + 1 =>
          let twins := { e with children := [.element e, .element e] }
          ((.replace (.element twins), e), rest) }

theorem frugal_doubling : doubling.Frugal id where
  enter _ _ := Nat.le_refl _
  exit _ _ := Nat.le_refl _
  keep {x y s t} h := by
    cases x with
    | element e =>
        cases s with
        | zero =>
            cases h
            exact ⟨Nat.le_refl _, Nat.le_refl _⟩
        | succ rest => cases h
    | mustache | block | text | comment | mustacheComment =>
        cases h
        exact ⟨Nat.le_refl _, Nat.le_refl _⟩
  replace {x y left s t} h := by
    cases x with
    | element e =>
        cases s with
        | zero => cases h
        | succ rest =>
            cases h
            exact Nat.lt_succ_self _
    | mustache | block | text | comment | mustacheComment => cases h
  remove {x left s t} h := by
    cases x with
    | element e => cases s <;> cases h
    | mustache | block | text | comment | mustacheComment => cases h

/-- What is put in the place of an element is larger than the element and is replaced
again. -/
theorem traverse_terminates_doubling :
    let p := Build.program [.element (Build.element "a" .synthetic)] []
    doubling.Frugal id ∧ ∃ depth r, ∀ more, doubling.traverse (depth + more) p 3 = some r := by
  intro p
  exact ⟨frugal_doubling, traverse_terminates.1 Nat doubling id frugal_doubling p 3⟩

end Component

end CurlyTemplate
