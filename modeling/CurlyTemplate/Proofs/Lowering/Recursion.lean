import CurlyTemplate.Component.Lowering

/-!
# Lowering as a recursion

The lowered tree, said without a visitor and without a state: the names in scope are
an argument that grows on the way down, and every statement is read once. A block keeps
all but its two bodies, each of which is lowered under its own block params. An element
takes one of three forms, which its own tag and attributes decide: markup around the
lowered children, a call in curlies, or a call around the lowered children. Only the
last brings the block params of the element into scope.
-/

namespace CurlyTemplate

namespace Component

/-- What an element becomes. -/
inductive Form where
  | markup (e : Element)
  /-- A call in curlies, which leaves nothing of the children. -/
  | inline (call : Call)
  /-- A call around the children of the element, under its block params. -/
  | around (call : Call)

def Form.ofCall (selfClosing : Bool) (call : Call) : Form :=
  if selfClosing then .inline call else .around call

/-- What an element becomes, given the names in scope. -/
def form (source : Source) (scope : Scope) (e : Element) : Form :=
  match classify source scope e with
  | .markup false => .markup e
  | .markup true => .markup (applySplat e)
  | .static name selfClosing hasSplat =>
      .ofCall selfClosing ⟨Build.path name, [], invocationHash e.attributes hasSplat⟩
  | .dynamic callee selfClosing hasSplat =>
      .ofCall selfClosing
        ⟨Build.path componentHelper, [callee.expression], invocationHash e.attributes hasSplat⟩

theorem Form.ofCall_ne_markup {selfClosing : Bool} {call : Call} {e : Element} :
    ofCall selfClosing call ≠ .markup e := by
  cases selfClosing <;> exact fun h => nomatch h

theorem form_eq_markup_iff {source : Source} {scope : Scope} {e kept : Element} :
    form source scope e = .markup kept ↔
      classify source scope e = .markup false ∧ e = kept ∨
        classify source scope e = .markup true ∧ applySplat e = kept := by
  simp only [form]
  split <;> simp_all [Form.ofCall_ne_markup]

theorem children_of_form_markup {source : Source} {scope : Scope} {e kept : Element}
    (h : form source scope e = .markup kept) : kept.children = e.children := by
  rcases form_eq_markup_iff.mp h with ⟨-, rfl⟩ | ⟨-, rfl⟩ <;> rfl

/-- How an element was closed, when it invokes a component. -/
def Invocation.closing? : Invocation → Option Bool
  | .markup _ => none
  | .static _ selfClosing _ | .dynamic _ selfClosing _ => some selfClosing

/-- Whether an element invokes a component, given the names in scope. -/
def isComponent (source : Source) (scope : Scope) (e : Element) : Bool :=
  (classify source scope e).closing?.isSome

theorem eq_of_closing?_classifyTag {scope : Scope} {tag : List Char} {closing hasSplat b : Bool}
    (h : (classifyTag scope tag closing hasSplat).closing? = some b) : b = closing := by
  simp only [classifyTag] at h
  repeat' split at h
  all_goals simp_all [Invocation.closing?]

/-- Markup stays an element; a component becomes a call in curlies when it was closed at
once, and a call around its children when it was not. -/
theorem form_cases (source : Source) (scope : Scope) (e : Element) :
    (isComponent source scope e = false ∧ ∃ kept, form source scope e = .markup kept) ∨
      (isComponent source scope e = true ∧ source.selfClosing e = true ∧
        ∃ call, form source scope e = .inline call) ∨
      (isComponent source scope e = true ∧ source.selfClosing e = false ∧
        ∃ call, form source scope e = .around call) := by
  have hclosing {b : Bool} (h : (classify source scope e).closing? = some b) :
      b = source.selfClosing e := eq_of_closing?_classifyTag h
  simp only [form, isComponent]
  cases hclassify : classify source scope e with
  | markup hasSplat =>
      refine .inl ⟨rfl, ?_⟩
      cases hasSplat <;> exact ⟨_, rfl⟩
  | static name selfClosing hasSplat | dynamic callee selfClosing hasSplat =>
      rw [hclassify] at hclosing
      refine .inr ?_
      rw [← hclosing rfl]
      cases selfClosing
      · exact .inr ⟨rfl, rfl, _, rfl⟩
      · exact .inl ⟨rfl, rfl, _, rfl⟩

section Kinds

variable {source : Source} {scope : Scope} {e : Element}

theorem form_of_markup (h : isComponent source scope e = false) :
    ∃ kept, form source scope e = .markup kept := by
  rcases form_cases source scope e with ⟨-, hform⟩ | ⟨hcomponent, -⟩ | ⟨hcomponent, -⟩
  · exact hform
  · cases hcomponent.symm.trans h
  · cases hcomponent.symm.trans h

theorem form_of_isComponent (h : isComponent source scope e = true) :
    (source.selfClosing e = true ∧ ∃ call, form source scope e = .inline call) ∨
      (source.selfClosing e = false ∧ ∃ call, form source scope e = .around call) := by
  rcases form_cases source scope e with ⟨hmarkup, -⟩ | ⟨-, hform⟩ | ⟨-, hform⟩
  · cases hmarkup.symm.trans h
  · exact .inl hform
  · exact .inr hform

end Kinds

end Component

open Component (Scope Form form)

mutual

/-- The lowered statement. -/
def Statement.lowered (source : Source) (scope : Scope) : Statement → Statement
  | .element e@⟨_, _, _, children, blockParams, _, loc, _⟩ =>
      match form source scope e with
      | .markup e => .element { e with children := loweredStatements source scope children }
      | .inline call => .mustache (Build.mustache call loc)
      | .around call =>
          let body := loweredStatements source (scope.push blockParams) children
          .block (Build.block call (Build.program body blockParams) none loc)
  | .block ⟨call, program, inverse, loc, extra⟩ =>
      .block ⟨call, program.lowered source scope, loweredInverse source scope inverse, loc, extra⟩
  | other => other

def loweredStatements (source : Source) (scope : Scope) : List Statement → List Statement
  | [] => []
  | s :: rest => s.lowered source scope :: loweredStatements source scope rest

def Program.lowered (source : Source) (scope : Scope) : Program → Program
  | ⟨body, blockParams, loc⟩ =>
      ⟨loweredStatements source (scope.push blockParams) body, blockParams, loc⟩

def loweredInverse (source : Source) (scope : Scope) : Option Program → Option Program
  | none => none
  | some p => some (p.lowered source scope)

end

variable {source : Source} {scope : Scope}

@[simp] theorem loweredStatements_eq_map (statements : List Statement) :
    loweredStatements source scope statements =
      statements.map (Statement.lowered source scope) := by
  induction statements with
  | nil => rfl
  | cons s rest ih => rw [loweredStatements, List.map_cons, ih]

@[simp] theorem loweredInverse_eq_map (inverse : Option Program) :
    loweredInverse source scope inverse = inverse.map (Program.lowered source scope) := by
  cases inverse <;> rfl

theorem Program.lowered_eq (p : Program) :
    p.lowered source scope =
      { p with body := p.body.map (Statement.lowered source (scope.push p.blockParams)) } := by
  cases p
  simp [Program.lowered]

@[simp] theorem Program.blockParams_lowered (p : Program) :
    (p.lowered source scope).blockParams = p.blockParams := by
  cases p
  rfl

theorem Statement.lowered_block (b : Block) :
    (Statement.block b).lowered source scope =
      .block { b with
        program := b.program.lowered source scope
        inverse := b.inverse.map (Program.lowered source scope) } := by
  cases b
  simp [Statement.lowered]

theorem Statement.lowered_markup {e kept : Element} (h : form source scope e = .markup kept) :
    (Statement.element e).lowered source scope =
      .element { kept with children := e.children.map (Statement.lowered source scope) } := by
  cases e
  simp [Statement.lowered, h]

theorem Statement.lowered_inline {e : Element} {call : Call}
    (h : form source scope e = .inline call) :
    (Statement.element e).lowered source scope = .mustache (Build.mustache call e.loc) := by
  cases e
  simp [Statement.lowered, h]

theorem Statement.lowered_around {e : Element} {call : Call}
    (h : form source scope e = .around call) :
    (Statement.element e).lowered source scope =
      .block (Build.block call
        (Build.program (e.children.map (Statement.lowered source (scope.push e.blockParams)))
          e.blockParams)
        none e.loc) := by
  cases e
  simp [Statement.lowered, h]

end CurlyTemplate
