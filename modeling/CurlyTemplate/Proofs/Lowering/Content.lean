import CurlyTemplate.Proofs.Lowering.Places
import Mathlib.Data.List.Basic

/-!
# Text and comments in a lowered tree

The content of a tree is its text and its comments, in the order of the text. Lowering
moves children from elements into blocks, and walks them there. It neither repeats nor
reorders any content, and loses only what lies below an element that becomes a mustache
(`content_lower`).
-/

namespace CurlyTemplate

open Component (Scope form isComponent form_cases lower lower_eq_lowered)

variable {source : Source} {scope outer : Scope}

def Statement.isContent : Statement → Bool
  | .text _ | .comment _ | .mustacheComment _ => true
  | _ => false

/-- The text and the comments among some nodes. -/
def content (nodes : List (Scope × Statement)) : List Statement :=
  (nodes.map (·.2)).filter Statement.isContent

theorem content_flatMap (f : Statement → List (Scope × Statement)) (statements : List Statement) :
    content (statements.flatMap f) = statements.flatMap fun s => content (f s) := by
  rw [content, List.map_flatMap, List.filter_flatMap]
  rfl

theorem content_element (e : Element) :
    content ((Statement.element e).nodes outer) =
      e.children.flatMap fun s => content (s.nodes outer) := by
  rw [Statement.nodes_element, ← content_flatMap]
  rfl

theorem content_program (p : Program) :
    content (p.nodes outer) =
      p.body.flatMap fun s => content (s.nodes (outer.push p.blockParams)) := by
  rw [Program.nodes_eq, content_flatMap]

theorem content_block (b : Block) :
    content ((Statement.block b).nodes outer) =
      content (b.program.nodes outer) ++
        b.inverse.elim [] fun p => content (p.nodes outer) := by
  have hinside : content ((Statement.block b).nodes outer) =
      content (b.program.nodes outer ++ b.inverse.elim [] (Program.nodes outer)) := by
    rw [Statement.nodes_block]
    rfl
  rw [hinside, content, List.map_append, List.filter_append]
  cases b.inverse <;> rfl

/-- Whether an element becomes a call in curlies, which leaves nothing of its children. -/
def inlined (source : Source) (scope : Scope) (e : Element) : Bool :=
  isComponent source scope e && source.selfClosing e

/-- The names in scope for the children of an element in the lowered tree. -/
def scopeInside (source : Source) (scope : Scope) (e : Element) : Scope :=
  if isComponent source scope e then scope.push e.blockParams else scope

mutual

/-- The text and the comments of a statement. Each is marked by whether it lies below an
element that becomes a call in curlies; the names in scope are those that the lowering
sees. -/
def Statement.marked (source : Source) (scope : Scope) (below : Bool) :
    Statement → List (Bool × Statement)
  | .element e@⟨_, _, _, children, _, _, _, _⟩ =>
      markedOfStatements source (scopeInside source scope e) (below || inlined source scope e)
        children
  | .block ⟨_, program, inverse, _, _⟩ =>
      program.marked source scope below ++ markedOfInverse source scope below inverse
  | .mustache _ => []
  | other => [(below, other)]

def markedOfStatements (source : Source) (scope : Scope) (below : Bool) :
    List Statement → List (Bool × Statement)
  | [] => []
  | s :: rest => s.marked source scope below ++ markedOfStatements source scope below rest

def Program.marked (source : Source) (scope : Scope) (below : Bool) :
    Program → List (Bool × Statement)
  | ⟨body, blockParams, _⟩ => markedOfStatements source (scope.push blockParams) below body

def markedOfInverse (source : Source) (scope : Scope) (below : Bool) :
    Option Program → List (Bool × Statement)
  | none => []
  | some p => p.marked source scope below

end

variable {below : Bool}

theorem markedOfStatements_eq_flatMap (statements : List Statement) :
    markedOfStatements source scope below statements =
      statements.flatMap (Statement.marked source scope below) := by
  induction statements with
  | nil => rfl
  | cons s rest ih => rw [markedOfStatements, ih, List.flatMap_cons]

theorem Statement.marked_element (e : Element) :
    (Statement.element e).marked source scope below =
      e.children.flatMap
        (Statement.marked source (scopeInside source scope e)
          (below || inlined source scope e)) := by
  cases e
  rw [Statement.marked, markedOfStatements_eq_flatMap]

theorem Program.marked_eq (p : Program) :
    p.marked source scope below =
      p.body.flatMap (Statement.marked source (scope.push p.blockParams) below) := by
  cases p
  exact markedOfStatements_eq_flatMap _

theorem Statement.marked_block (b : Block) :
    (Statement.block b).marked source scope below =
      b.program.marked source scope below ++
        b.inverse.elim [] (Program.marked source scope below) := by
  obtain ⟨call, program, inverse, loc, extra⟩ := b
  cases inverse <;> rfl

section Membership

variable {y : Bool × Statement}

theorem Statement.mem_marked_element {e : Element} :
    y ∈ (Statement.element e).marked source scope below ↔
      ∃ s ∈ e.children,
        y ∈ s.marked source (scopeInside source scope e) (below || inlined source scope e) := by
  rw [Statement.marked_element, List.mem_flatMap]

theorem Program.mem_marked {p : Program} :
    y ∈ p.marked source scope below ↔
      ∃ s ∈ p.body, y ∈ s.marked source (scope.push p.blockParams) below := by
  rw [Program.marked_eq, List.mem_flatMap]

theorem Statement.mem_marked_block {b : Block} :
    y ∈ (Statement.block b).marked source scope below ↔
      y ∈ b.program.marked source scope below ∨
        ∃ r, b.inverse = some r ∧ y ∈ r.marked source scope below := by
  rw [Statement.marked_block, List.mem_append]
  cases b.inverse <;> simp

end Membership

/-- The content that has no mark. -/
def unmarked (marked : List (Bool × Statement)) : List Statement :=
  (marked.filter (!·.1)).map Prod.snd

theorem unmarked_append (marked others : List (Bool × Statement)) :
    unmarked (marked ++ others) = unmarked marked ++ unmarked others := by
  rw [unmarked, List.filter_append, List.map_append]
  rfl

theorem unmarked_flatMap (f : Statement → List (Bool × Statement)) (statements : List Statement) :
    unmarked (statements.flatMap f) = statements.flatMap fun s => unmarked (f s) := by
  simp only [unmarked, List.filter_flatMap, List.map_flatMap]

theorem unmarked_eq_nil {marked : List (Bool × Statement)} (h : ∀ y ∈ marked, y.1 = true) :
    unmarked marked = [] := by
  have hnone : marked.filter (!·.1) = [] := by
    rw [List.filter_eq_nil_iff]
    intro y hy
    rw [h y hy]
    exact Bool.false_ne_true
  rw [unmarked, hnone]
  rfl

theorem map_snd_marked_program {p : Program}
    (h : ∀ s ∈ p.body, ∀ scope outer below,
      (s.marked source scope below).map Prod.snd = content (s.nodes outer)) :
    (p.marked source scope below).map Prod.snd = content (p.nodes outer) := by
  rw [Program.marked_eq, content_program, List.map_flatMap]
  exact List.flatMap_congr fun s hs => h s hs _ _ _

/-- Without the marks, this is all content, in order. -/
theorem map_snd_marked (s : Statement) (source : Source) (scope outer : Scope) (below : Bool) :
    (s.marked source scope below).map Prod.snd = content (s.nodes outer) := by
  induction s using Statement.induction generalizing scope outer below with
  | element e ih =>
      rw [Statement.marked_element, content_element, List.map_flatMap]
      exact List.flatMap_congr fun s hs => ih s hs _ _ _
  | block b ihprogram ihinverse =>
      rw [Statement.marked_block, content_block, List.map_append,
        map_snd_marked_program ihprogram]
      cases hinverse : b.inverse with
      | none => rfl
      | some p => exact congrArg _ (map_snd_marked_program (ihinverse p hinverse))
  | mustache | text | comment | mustacheComment => rfl

theorem fst_of_mem_marked_below (s : Statement) {y : Bool × Statement}
    (h : y ∈ s.marked source scope true) : y.1 = true := by
  induction s using Statement.induction generalizing scope with
  | element e ih =>
      obtain ⟨s, hs, hy⟩ := Statement.mem_marked_element.mp h
      rw [Bool.true_or] at hy
      exact ih s hs hy
  | block b ihprogram ihinverse =>
      rcases Statement.mem_marked_block.mp h with h | ⟨r, hr, h⟩
      · obtain ⟨s, hs, hy⟩ := Program.mem_marked.mp h
        exact ihprogram s hs hy
      · obtain ⟨s, hs, hy⟩ := Program.mem_marked.mp h
        exact ihinverse r hr s hs hy
  | mustache m => cases h
  | text | comment | mustacheComment =>
      cases List.mem_singleton.mp h
      rfl

/-- Nothing is left of what lies below an element that becomes a call in curlies. -/
theorem unmarked_marked_below (s : Statement) : unmarked (s.marked source scope true) = [] :=
  unmarked_eq_nil fun _ hy => fst_of_mem_marked_below s hy

theorem content_program_lowered {p : Program}
    (h : ∀ s ∈ p.body, ∀ scope outer,
      content ((s.lowered source scope).nodes outer) = unmarked (s.marked source scope false)) :
    content ((p.lowered source scope).nodes outer) = unmarked (p.marked source scope false) := by
  rw [Program.lowered_eq, content_program, List.flatMap_map, Program.marked_eq, unmarked_flatMap]
  exact List.flatMap_congr fun s hs => h s hs _ _

theorem content_lowered (s : Statement) (source : Source) (scope outer : Scope) :
    content ((s.lowered source scope).nodes outer) = unmarked (s.marked source scope false) := by
  induction s using Statement.induction generalizing scope outer with
  | element e ih =>
      rw [Statement.marked_element, unmarked_flatMap, inlined, scopeInside]
      rcases form_cases source scope e with ⟨hcomponent, kept, hform⟩ |
        ⟨hcomponent, hclosing, call, hform⟩ | ⟨hcomponent, hclosing, call, hform⟩
      · rw [Statement.lowered_markup hform, content_element, List.flatMap_map, hcomponent]
        exact List.flatMap_congr fun s hs => ih s hs _ _
      · rw [Statement.lowered_inline hform, hcomponent, hclosing]
        exact (List.flatMap_eq_nil_iff.mpr fun s _ => unmarked_marked_below s).symm
      · rw [Statement.lowered_around hform, content_block, content_program, hcomponent, hclosing]
        simp only [Build.block, Build.program, Option.elim_none, List.append_nil, List.flatMap_map]
        exact List.flatMap_congr fun s hs => ih s hs _ _
  | block b ihprogram ihinverse =>
      rw [Statement.lowered_block, content_block, Statement.marked_block, unmarked_append,
        content_program_lowered ihprogram]
      congr 1
      cases hinverse : b.inverse with
      | none => rfl
      | some p => exact content_program_lowered (ihinverse p hinverse)
  | mustache | text | comment | mustacheComment => rfl

theorem inlined_iff {e : Element} :
    inlined source scope e = true ↔
      ∃ m, (Statement.element e).lowered source scope = .mustache m := by
  rw [inlined]
  rcases form_cases source scope e with ⟨hcomponent, kept, hform⟩ |
    ⟨hcomponent, hclosing, call, hform⟩ | ⟨hcomponent, hclosing, call, hform⟩
  · simp [hcomponent, Statement.lowered_markup hform]
  · simp [hcomponent, hclosing, Statement.lowered_inline hform]
  · simp [hcomponent, hclosing, Statement.lowered_around hform]

variable {p q : Program}

/-- Content is marked only below an element whose place a mustache has taken. -/
theorem exists_facing_of_mem_marked (s : Statement) {t : Statement}
    (h : Facing p q scope s (s.lowered source scope))
    (ht : (true, t) ∈ s.marked source scope false) :
    ∃ names e m, Facing p q names (.element e) (.mustache m) ∧ e.children ≠ [] := by
  induction s using Statement.induction generalizing scope with
  | element e ih =>
      obtain ⟨s, hs, ht⟩ := Statement.mem_marked_element.mp ht
      rw [inlined, scopeInside] at ht
      rcases form_cases source scope e with ⟨hcomponent, kept, hform⟩ |
        ⟨hcomponent, hclosing, call, hform⟩ | ⟨hcomponent, hclosing, call, hform⟩
      · rw [hcomponent] at ht
        exact ih s hs (h.child_lowered hform hs) ht
      · rw [Statement.lowered_inline hform] at h
        exact ⟨_, _, _, h, List.ne_nil_of_mem hs⟩
      · rw [hcomponent, hclosing] at ht
        exact ih s hs (h.taken_lowered hform hs) ht
  | block b ihprogram ihinverse =>
      rcases Statement.mem_marked_block.mp ht with ht | ⟨r, hr, ht⟩
      · obtain ⟨s, hs, ht⟩ := Program.mem_marked.mp ht
        exact ihprogram s hs (h.program_lowered hs) ht
      · obtain ⟨s, hs, ht⟩ := Program.mem_marked.mp ht
        exact ihinverse r hr s hs (h.inverse_lowered hr hs) ht
  | mustache m => cases ht
  | text | comment | mustacheComment => cases List.mem_singleton.mp ht

theorem unmarked_eq_of_childless
    (h : ∀ names e m, Facing p (lower source p) names (.element e) (.mustache m) →
      e.children = []) :
    unmarked (p.marked source .empty false) = (p.marked source .empty false).map Prod.snd := by
  rw [unmarked, List.filter_eq_self.mpr]
  rintro ⟨below, t⟩ ht
  cases below with
  | false => rfl
  | true =>
      obtain ⟨s, hs, ht⟩ := Program.mem_marked.mp ht
      obtain ⟨names, e, m, hplace, hne⟩ := exists_facing_of_mem_marked s (.body_lower hs) ht
      exact absurd (h names e m hplace) hne

/-- The content of a lowered tree is the content of the tree, in its order and each piece
once, without that below an element that becomes a call in curlies. If no such element has
children, nothing is lost. -/
theorem content_lower (source : Source) (p : Program) :
    (∀ scope e, inlined source scope e = true ↔
      ∃ m, (Statement.element e).lowered source scope = .mustache m) ∧
    (p.marked source .empty false).map Prod.snd = content (p.nodes .empty) ∧
    content ((lower source p).nodes .empty) = unmarked (p.marked source .empty false) ∧
    ((∀ names e m, Facing p (lower source p) names (.element e) (.mustache m) →
        e.children = []) →
      content ((lower source p).nodes .empty) = content (p.nodes .empty)) := by
  have hmarked : (p.marked source .empty false).map Prod.snd = content (p.nodes .empty) :=
    map_snd_marked_program fun s _ scope outer below => map_snd_marked s source scope outer below
  have hlower : content ((lower source p).nodes .empty) =
      unmarked (p.marked source .empty false) := by
    rw [lower_eq_lowered]
    exact content_program_lowered fun s _ scope outer => content_lowered s source scope outer
  refine ⟨fun scope e => inlined_iff, hmarked, hlower, fun hchildless => ?_⟩
  rw [hlower, unmarked_eq_of_childless hchildless, hmarked]

/-- A component around text, and one that was closed at once. -/
def mixed : Program :=
  let around := { Build.element "FooBar" .synthetic with
    children := [.text (Build.text "x")], selfClosing := some false }
  let closed := { Build.element "FooBar" .synthetic with selfClosing := some true }
  Build.program [.comment (Build.comment "a"), .element around, .element closed] []

theorem content_lower_mixed :
    (∀ names e m, Facing mixed (lower .unavailable mixed) names (.element e) (.mustache m) →
      e.children = []) ∧
    content ((lower .unavailable mixed).nodes .empty) =
      [.comment (Build.comment "a"), .text (Build.text "x")] := by
  have hchildless : ∀ names e m,
      Facing mixed (lower .unavailable mixed) names (.element e) (.mustache m) →
        e.children = [] := by
    intro names e m h
    have hinlined := inlined_iff.mpr ⟨m, h.eq_lowered.symm⟩
    have hclosing := (Bool.and_eq_true_iff.mp hinlined).2
    obtain ⟨outer, he⟩ := h.exists_mem_nodes
    have hcases : (outer, Statement.element e) ∈ [_, _, _, _] := he
    simp only [List.mem_cons, List.not_mem_nil, or_false] at hcases
    rcases hcases with heq | heq | heq | heq
    · cases heq
    · cases heq
      cases hclosing
    · cases heq
    · cases heq
      rfl
  exact ⟨hchildless, (content_lower .unavailable mixed).2.2.2 hchildless⟩

end CurlyTemplate
