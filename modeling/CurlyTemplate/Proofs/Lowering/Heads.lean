import CurlyTemplate.Proofs.Lowering.Lockstep

/-!
# The names that lowering looks up

Of the names in scope lowering asks one thing: whether the head of a tag is among them. Two
scopes that agree on the heads of all tags of a tree lower it alike, for what the bodies inside
bring in comes on top of both (`AgreeOnHeads.push`). So the block params around a tree count as
a set, and only as far as its tags go (`body_lower_eq`).
-/

namespace CurlyTemplate

namespace Component

/-- The name by which an element may invoke a local value: its tag as written, up to the
first dot. -/
def headName (source : Source) (e : Element) : String :=
  String.ofList (Text.headSegment '.' (source.tagName e))

/-- Two scopes agree on the heads of the elements among some nodes. The names that stand
beside the nodes do not matter. -/
def AgreeOnHeads (source : Source) (scope scope' : Scope) (nodes : List (Scope × Statement)) :
    Prop :=
  ∀ names e, (names, Statement.element e) ∈ nodes →
    scope.contains (headName source e) = scope'.contains (headName source e)

variable {source : Source} {scope scope' : Scope}

/-- The names of a body come on top of both scopes. -/
theorem AgreeOnHeads.push {nodes : List (Scope × Statement)}
    (h : AgreeOnHeads source scope scope' nodes) (names : List String) :
    AgreeOnHeads source (scope.push names) (scope'.push names) nodes := by
  intro inner e he
  rw [Scope.contains_push, Scope.contains_push, h inner e he]

theorem classify_eq_of_contains {e : Element}
    (h : scope.contains (headName source e) = scope'.contains (headName source e)) :
    classify source scope e = classify source scope' e := by
  rw [headName] at h
  simp only [classify, classifyTag, h]

/-- Scopes that agree on the heads of some elements give each of them the same form. -/
theorem sameForms_of_agreeOnHeads (source : Source) (nodes : List (Scope × Statement)) :
    SameForms source source (AgreeOnHeads source · · nodes) nodes := by
  intro names e he scope scope' h
  rw [form, form, classify_eq_of_contains (h names e he)]

/-- The block params of a program count only as the set of those that some tag in its body,
at any depth, has for its head. -/
theorem body_lower_eq (source : Source) {body : List Statement} {names names' : List String}
    (h : ∀ scope e, (scope, Statement.element e) ∈ nodesOfStatements .empty body →
      (headName source e ∈ names ↔ headName source e ∈ names')) (loc loc' : Span) :
    (lower source ⟨body, names, loc⟩).body = (lower source ⟨body, names', loc'⟩).body := by
  have hagree : AgreeOnHeads source (Scope.empty.push names) (Scope.empty.push names')
      (nodesOfStatements .empty body) := by
    intro scope e he
    have hcontains (names : List String) :
        (Scope.empty.push names).contains (headName source e) =
          names.contains (headName source e) := rfl
    rw [hcontains, hcontains, Bool.eq_iff_iff, List.contains_iff_mem, List.contains_iff_mem,
      h scope e he]
  rw [lower_eq_lowered, lower_eq_lowered, Program.lowered_eq, Program.lowered_eq]
  refine List.map_congr_left fun s hs => ?_
  have hinside : s.nodes .empty ⊆ nodesOfStatements .empty body :=
    fun _ hx => mem_nodesOfStatements.mpr ⟨s, hs, hx⟩
  exact s.lowered_eq_of_sameForms (fun _ _ names h => h.push names)
    ((sameForms_of_agreeOnHeads source _).mono hinside) hagree

/-- `<item.title>`, which takes a local value when `item` is in scope. -/
def titleElement : Element := Build.element "item.title" .synthetic

/-- `<index />` -/
def indexElement : Element := Build.element "index" .synthetic

/-- `<item.title>` inside a block that brings the name in again and behind it, where its name
is that of the outer body. -/
def shadowing : List Statement :=
  let call : Call := ⟨Build.path "each", [Build.path "items"], Build.hash []⟩
  [.block (Build.block call (Build.program [.element titleElement] ["item"]) none .synthetic),
    .element titleElement, .element indexElement]

theorem element_of_mem_shadowing {scope : Scope} {e : Element}
    (h : (scope, Statement.element e) ∈ nodesOfStatements .empty shadowing) :
    e = titleElement ∨ e = indexElement := by
  rcases mem_nodesOfStatements.mp h with ⟨s, hs, he⟩
  simp only [shadowing, List.mem_cons, List.not_mem_nil, or_false] at hs
  rcases hs with rfl | rfl | rfl
  · rcases Statement.mem_nodes_block.mp he with heq | he | ⟨p, hp, -⟩
    · cases heq
    · obtain ⟨s, hs, he⟩ := Program.mem_nodes.mp he
      cases List.mem_singleton.mp hs
      cases List.mem_singleton.mp he
      exact .inl rfl
    · cases hp
  · cases List.mem_singleton.mp he
    exact .inl rfl
  · cases List.mem_singleton.mp he
    exact .inr rfl

/-- Neither the order of the block params makes a difference nor a name that comes twice or
that no tag starts with. -/
theorem body_lower_eq_shadowing :
    (lower .unavailable ⟨shadowing, ["item", "index"], .synthetic⟩).body =
      (lower .unavailable ⟨shadowing, ["index", "unused", "item", "index"], .synthetic⟩).body := by
  refine body_lower_eq .unavailable (fun scope e he => ?_) .synthetic .synthetic
  rcases element_of_mem_shadowing he with rfl | rfl <;> decide

end Component

end CurlyTemplate
