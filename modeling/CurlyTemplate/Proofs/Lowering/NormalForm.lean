import CurlyTemplate.Proofs.Lowering.Simulation
import CurlyTemplate.Proofs.Tree.Nodes

/-!
# The normal form of lowering

A tree is in normal form when every element, judged by the names in scope where it
stands, is markup that forwards no attributes. Lowering gives a normal form: an element
is judged when the visitor meets it, and by then the programs around it are those of the
lowered tree, as every component element around it has become a block. Trees in normal
form are exactly those that lowering leaves as they are, so lowering twice is lowering
once.
-/

namespace CurlyTemplate

namespace Component

variable {source : Source} {scope : Scope}

/-- The tag of plain markup: no named argument, no path of `this`, no local value and
no capital in front. -/
def MarkupTag (scope : Scope) (tag : List Char) : Prop :=
  tag.head? ≠ some '@' ∧ ¬ "this.".toList <+: tag ∧
    scope.contains (String.ofList (Text.headSegment '.' tag)) = false ∧
    tag.head?.any Text.isCapital = false

theorem classifyTag_eq_markup_iff {tag : List Char} {selfClosing hasSplat b : Bool} :
    classifyTag scope tag selfClosing hasSplat = .markup b ↔ MarkupTag scope tag ∧ hasSplat = b := by
  simp only [classifyTag, MarkupTag]
  split
  · simp_all
  split
  · simp_all
  split
  · simp_all
  split
  · simp_all
  · split <;> simp_all

theorem classify_eq_markup_iff {e : Element} {b : Bool} :
    classify source scope e = .markup b ↔
      MarkupTag scope (source.tagName e) ∧ hasSplat e = b :=
  classifyTag_eq_markup_iff

/-- An element that stays markup is markup without attributes to forward from then on,
whatever becomes of its children. -/
theorem classify_of_form_markup {e kept : Element} (h : form source scope e = .markup kept)
    (children : List Statement) :
    classify source scope { kept with children := children } = .markup false := by
  rcases form_eq_markup_iff.mp h with ⟨hclassify, rfl⟩ | ⟨hclassify, rfl⟩
  · exact classify_eq_markup_iff.mpr (classify_eq_markup_iff.mp hclassify)
  · refine classify_eq_markup_iff.mpr ⟨(classify_eq_markup_iff.mp hclassify).1, ?_⟩
    simp [hasSplat, applySplat]

/-- Every element among some nodes is markup that forwards no attributes. -/
def OnlyMarkup (source : Source) (nodes : List (Scope × Statement)) : Prop :=
  ∀ scope e, (scope, .element e) ∈ nodes → classify source scope e = .markup false

theorem onlyMarkup_element_iff {e : Element} :
    OnlyMarkup source ((Statement.element e).nodes scope) ↔
      classify source scope e = .markup false ∧
        ∀ s ∈ e.children, OnlyMarkup source (s.nodes scope) := by
  simp only [OnlyMarkup, Statement.mem_nodes_element]
  constructor
  · intro h
    exact ⟨h scope e (.inl rfl), fun s hs names d hd => h names d (.inr ⟨s, hs, hd⟩)⟩
  · rintro ⟨he, hchildren⟩ names d (hd | ⟨s, hs, hd⟩)
    · cases hd
      exact he
    · exact hchildren s hs names d hd

theorem onlyMarkup_program_iff {p : Program} :
    OnlyMarkup source (p.nodes scope) ↔
      ∀ s ∈ p.body, OnlyMarkup source (s.nodes (scope.push p.blockParams)) := by
  simp only [OnlyMarkup, Program.mem_nodes]
  constructor
  · intro h s hs names e he
    exact h names e ⟨s, hs, he⟩
  · rintro h names e ⟨s, hs, he⟩
    exact h s hs names e he

theorem onlyMarkup_block_iff {b : Block} :
    OnlyMarkup source ((Statement.block b).nodes scope) ↔
      OnlyMarkup source (b.program.nodes scope) ∧
        ∀ p, b.inverse = some p → OnlyMarkup source (p.nodes scope) := by
  simp only [OnlyMarkup, Statement.mem_nodes_block]
  constructor
  · intro h
    exact ⟨fun names e he => h names e (.inr (.inl he)),
      fun p hp names e he => h names e (.inr (.inr ⟨p, hp, he⟩))⟩
  · rintro ⟨hprogram, hinverse⟩ names e (he | he | ⟨p, hp, he⟩)
    · cases he
    · exact hprogram names e he
    · exact hinverse p hp names e he

theorem onlyMarkup_mustache (m : Mustache) :
    OnlyMarkup source ((Statement.mustache m).nodes scope) := by
  intro names e he
  simp [Statement.nodes] at he

theorem onlyMarkup_program_lowered {p : Program}
    (h : ∀ s ∈ p.body, ∀ scope, OnlyMarkup source ((s.lowered source scope).nodes scope)) :
    OnlyMarkup source ((p.lowered source scope).nodes scope) := by
  rw [onlyMarkup_program_iff, Program.lowered_eq]
  intro t ht
  obtain ⟨s, hs, rfl⟩ := List.mem_map.mp ht
  exact h s hs _

theorem onlyMarkup_lowered (s : Statement) (scope : Scope) :
    OnlyMarkup source ((s.lowered source scope).nodes scope) := by
  -- For all names in scope: the children of a component are judged by the names that they
  -- see in the block in its place, those of markup by the names that it sees itself.
  induction s using Statement.induction generalizing scope with
  | element e ih =>
      cases hform : form source scope e with
      | markup kept =>
          rw [Statement.lowered_markup hform, onlyMarkup_element_iff]
          refine ⟨classify_of_form_markup hform _, fun t ht => ?_⟩
          obtain ⟨s, hs, rfl⟩ := List.mem_map.mp ht
          exact ih s hs scope
      | inline call =>
          rw [Statement.lowered_inline hform]
          exact onlyMarkup_mustache _
      | around call =>
          rw [Statement.lowered_around hform, onlyMarkup_block_iff]
          refine ⟨onlyMarkup_program_iff.mpr fun t ht => ?_, fun _ h => nomatch h⟩
          obtain ⟨s, hs, rfl⟩ := List.mem_map.mp ht
          exact ih s hs _
  | block b ihprogram ihinverse =>
      rw [Statement.lowered_block, onlyMarkup_block_iff]
      refine ⟨onlyMarkup_program_lowered ihprogram, fun q hq => ?_⟩
      obtain ⟨p, hp, rfl⟩ := Option.map_eq_some_iff.mp hq
      exact onlyMarkup_program_lowered (ihinverse p hp)
  | mustache | text | comment | mustacheComment =>
      intro names e he
      simp [Statement.lowered, Statement.nodes] at he

theorem applySplat_attributes_ne {e : Element} (h : hasSplat e = true) :
    (applySplat e).attributes ≠ e.attributes := by
  obtain ⟨a, ha, hname⟩ := List.any_eq_true.mp h
  intro heq
  have hkept := List.filter_eq_self.mp heq a ha
  simp_all

theorem map_eq_self_iff {f : Statement → Statement} {statements : List Statement} :
    statements.map f = statements ↔ ∀ s ∈ statements, f s = s := by
  simpa using List.map_inj_left (l := statements) (f := f) (g := id)

theorem lowered_program_eq_self_iff (scope : Scope) {p : Program}
    (h : ∀ s ∈ p.body, ∀ scope,
      s.lowered source scope = s ↔ OnlyMarkup source (s.nodes scope)) :
    p.lowered source scope = p ↔ OnlyMarkup source (p.nodes scope) := by
  have hbody : p.lowered source scope = p ↔
      p.body.map (Statement.lowered source (scope.push p.blockParams)) = p.body := by
    rw [Program.lowered_eq]
    cases p
    simp
  rw [hbody, map_eq_self_iff, onlyMarkup_program_iff]
  exact forall₂_congr fun s hs => h s hs _

theorem element_eq_self_iff {e : Element} {children : List Statement} :
    Statement.element { e with children := children } = .element e ↔ children = e.children := by
  cases e
  simp

/-- An element that does not stay markup becomes another kind of statement, and one that
forwards attributes loses the attribute that says so. So nothing below can make up for a
change here. -/
theorem lowered_eq_self_iff (s : Statement) (scope : Scope) :
    s.lowered source scope = s ↔ OnlyMarkup source (s.nodes scope) := by
  induction s using Statement.induction generalizing scope with
  | element e ih =>
      rw [onlyMarkup_element_iff]
      have hmarkup (h : classify source scope e = .markup false) :
          form source scope e = .markup e := form_eq_markup_iff.mpr (.inl ⟨h, rfl⟩)
      cases hform : form source scope e with
      | markup kept =>
          rw [Statement.lowered_markup hform]
          rcases form_eq_markup_iff.mp hform with ⟨hclassify, rfl⟩ | ⟨hclassify, rfl⟩
          · rw [element_eq_self_iff, map_eq_self_iff, and_iff_right hclassify]
            exact forall₂_congr fun s hs => ih s hs scope
          · refine iff_of_false (fun h => ?_) fun h => ?_
            · have hsplat := (classify_eq_markup_iff.mp hclassify).2
              have hsame := congrArg Element.attributes (Statement.element.inj h)
              exact applySplat_attributes_ne hsplat hsame
            · rw [hclassify] at h
              cases h.1
      | inline call =>
          rw [Statement.lowered_inline hform]
          exact iff_of_false nofun fun h => nomatch hform.symm.trans (hmarkup h.1)
      | around call =>
          rw [Statement.lowered_around hform]
          exact iff_of_false nofun fun h => nomatch hform.symm.trans (hmarkup h.1)
  | block b ihprogram ihinverse =>
      rw [Statement.lowered_block, onlyMarkup_block_iff]
      obtain ⟨call, program, inverse, loc, extra⟩ := b
      have hprogram := lowered_program_eq_self_iff scope ihprogram
      cases inverse with
      | none => simp [hprogram]
      | some p =>
          have hinverse := lowered_program_eq_self_iff scope (ihinverse p rfl)
          simp [hprogram, hinverse]
  | mustache | text | comment | mustacheComment =>
      simp [Statement.lowered, OnlyMarkup, Statement.nodes]

theorem onlyMarkup_lower (p : Program) : OnlyMarkup source ((lower source p).nodes .empty) := by
  rw [lower_eq_lowered]
  exact onlyMarkup_program_lowered fun s _ scope => onlyMarkup_lowered s scope

theorem lower_eq_self_iff_onlyMarkup (p : Program) :
    lower source p = p ↔ OnlyMarkup source (p.nodes .empty) := by
  rw [lower_eq_lowered]
  exact lowered_program_eq_self_iff .empty fun s _ scope => lowered_eq_self_iff s scope

theorem splatName_not_mem_of_markup {e : Element} (h : classify source scope e = .markup false) :
    ∀ a ∈ e.attributes, a.name ≠ splatName := by
  have hsplat := (classify_eq_markup_iff.mp h).2
  simpa [hasSplat] using hsplat

/-- No element of a lowered tree invokes a component, and none has the attribute that
forwards attributes. The names by which it is judged are the block params of the programs
around it in the lowered tree. -/
theorem classify_of_mem_nodes_lower (source : Source) (p : Program) {names : Scope} {e : Element}
    (h : (names, .element e) ∈ (lower source p).nodes .empty) :
    classify source names e = .markup false ∧ ∀ a ∈ e.attributes, a.name ≠ splatName := by
  have hmarkup := onlyMarkup_lower p names e h
  exact ⟨hmarkup, splatName_not_mem_of_markup hmarkup⟩

/-- A component with a block param around an element that forwards attributes. -/
def wrapped : Program :=
  let inner := { Build.element "div" .synthetic with
    attributes := [Build.attributeNode splatName (.text (Build.text "")) .synthetic] }
  let outer := { Build.element "FooBar" .synthetic with
    blockParams := ["item"], children := [.element inner] }
  Build.program [.element outer] []

/-- Inside the block that the component has become, the element is markup. -/
theorem classify_of_mem_nodes_lower_wrapped :
    ∃ e, (⟨["item"]⟩, Statement.element e) ∈ (lower .unavailable wrapped).nodes .empty ∧
      classify .unavailable ⟨["item"]⟩ e = .markup false ∧
        ∀ a ∈ e.attributes, a.name ≠ splatName := by
  have h : (⟨["item"]⟩, Statement.element (applySplat { Build.element "div" .synthetic with
      attributes := [Build.attributeNode splatName (.text (Build.text "")) .synthetic] })) ∈
      (lower .unavailable wrapped).nodes .empty := List.mem_cons_of_mem _ List.mem_cons_self
  exact ⟨_, h, classify_of_mem_nodes_lower _ _ h⟩

/-- The fixed points of lowering are the trees without an element to change, and one run
reaches a fixed point. -/
theorem lower_eq_self_iff (source : Source) (p : Program) :
    (lower source p = p ↔ ∀ names e, (names, Statement.element e) ∈ p.nodes .empty →
      classify source names e = .markup false) ∧
    lower source (lower source p) = lower source p := by
  refine ⟨lower_eq_self_iff_onlyMarkup p, ?_⟩
  exact (lower_eq_self_iff_onlyMarkup _).mpr (onlyMarkup_lower p)

end Component

end CurlyTemplate
