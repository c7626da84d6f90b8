import CurlyTemplate.Proofs.Lowering.Simulation
import CurlyTemplate.Proofs.Traversal.Brackets
import CurlyTemplate.Proofs.Traversal.Tracing

/-!
# The scope as a stack

Names come into scope with the program that brings them in and are dropped again by their
number. That is safe as long as each drop takes as many names as came with the latest push
that has not been dropped yet: then the scope is what it was at the start, followed by the
pushes that are left (`run_eq_push`), whatever names are repeated or hidden.

A traversal keeps to this, since it leaves programs in the order in which it has entered
them, and with the block params that they had (`Nested`). So every hook is called in the
scope of the programs that are open at the time (`tracing_lowering`).
-/

namespace CurlyTemplate

namespace Component

open Visitor (Event Nested brackets callsOf)

/-- One change of a scope. -/
inductive ScopeStep where
  | push (names : List String)
  | pop (count : Nat)
deriving Repr, DecidableEq

namespace Scope

variable {scope : Scope} {steps : List ScopeStep} {pushes : List (List String)}

def step (scope : Scope) : ScopeStep → Scope
  | .push names => scope.push names
  | .pop count => scope.pop count

/-- The scope after some changes. -/
def run (scope : Scope) (steps : List ScopeStep) : Scope := steps.foldl step scope

theorem run_concat (scope : Scope) (steps : List ScopeStep) (last : ScopeStep) :
    scope.run (steps ++ [last]) = (scope.run steps).step last :=
  List.foldl_concat ..

/-- Changes in which each pop drops as many names as the latest push has brought in that was
not dropped before, with the pushes that are left, the latest last. -/
inductive Leaves : List ScopeStep → List (List String) → Prop
  | nil : Leaves [] []
  | push {steps : List ScopeStep} {pushes : List (List String)} (names : List String)
      (h : Leaves steps pushes) : Leaves (steps ++ [.push names]) (pushes ++ [names])
  | pop {steps : List ScopeStep} {pushes : List (List String)} {names : List String}
      (h : Leaves steps (pushes ++ [names])) : Leaves (steps ++ [.pop names.length]) pushes

/-- What the pushes that are left have brought in comes after the names at the start. -/
theorem run_eq_push (h : Leaves steps pushes) (scope : Scope) :
    scope.run steps = scope.push pushes.flatten := by
  induction h with
  | nil => simp [run, Scope.push]
  | push names _ ih => simp [run_concat, ih, step, Scope.push]
  | @pop steps pushes names _ ih =>
      have hsplit : scope.push (pushes ++ [names]).flatten =
          (scope.push pushes.flatten).push names := by
        simp [Scope.push]
      rw [run_concat, ih, hsplit]
      exact pop_push _ names

theorem contains_run_iff (h : Leaves steps pushes) (name : String) :
    (scope.run steps).contains name = true ↔
      name ∈ scope.names ∨ ∃ names ∈ pushes, name ∈ names := by
  rw [run_eq_push h, contains_push]
  simp [contains]

end Scope

/-- The change of the scope at a call of a hook. -/
def scopeStep? : Event → Option ScopeStep
  | .entered p => some (.push p.blockParams)
  | .left p => some (.pop p.blockParams.length)
  | .shown _ _ => none

/-- The changes of the scope at some calls. -/
def scopeSteps (calls : List Event) : List ScopeStep := calls.filterMap scopeStep?

theorem scopeSteps_concat (calls : List Event) (event : Event) :
    scopeSteps (calls ++ [event]) = scopeSteps calls ++ (scopeStep? event).toList := by
  rw [scopeSteps, List.filterMap_append, scopeSteps, List.filterMap_cons]
  cases scopeStep? event <;> rfl

/-- What a scope has become at a call. -/
theorem run_scopeSteps_concat (scope : Scope) (calls : List Event) (event : Event) :
    scope.run (scopeSteps (calls ++ [event])) =
      (scopeStep? event).elim (scope.run (scopeSteps calls))
        (scope.run (scopeSteps calls)).step := by
  rw [scopeSteps_concat]
  cases scopeStep? event with
  | none => rw [Option.toList_none, List.append_nil, Option.elim_none]
  | some step => rw [Option.toList_some, Scope.run_concat, Option.elim_some]

/-- The programs that are open once a call has been made, when some were open before. -/
def openAfter (programs : List Program) : Event → List Program
  | .entered p => programs ++ [p]
  | .left _ => programs.dropLast
  | .shown _ _ => programs

/-- The programs that were entered and have not been left yet, the outermost first. -/
def openPrograms (calls : List Event) : List Program := calls.foldl openAfter []

theorem openPrograms_concat (calls : List Event) (event : Event) :
    openPrograms (calls ++ [event]) = openAfter (openPrograms calls) event :=
  List.foldl_concat ..

theorem prefix_append_cases {before calls later : List Event} (h : before <+: calls ++ later) :
    before <+: calls ∨ ∃ rest, before = calls ++ rest ∧ rest <+: later := by
  rcases List.prefix_or_prefix_of_prefix h (List.prefix_append calls later) with hbefore | hcalls
  · exact .inl hbefore
  · obtain ⟨rest, rfl⟩ := hcalls
    exact .inr ⟨rest, rfl, (List.prefix_append_right_inj calls).mp h⟩

/-- Some programs are open after some calls, and what is left of the pushes is theirs. -/
structure Opens (calls : List Event) (programs : List Program) : Prop where
  openPrograms_eq : openPrograms calls = programs
  leaves : Scope.Leaves (scopeSteps calls) (programs.map Program.blockParams)

namespace Opens

variable {calls earlier before : List Event} {programs : List Program} {p q : Program}

theorem nil : Opens [] [] := ⟨rfl, .nil⟩

theorem entered (h : Opens calls programs) (p : Program) :
    Opens (calls ++ [.entered p]) (programs ++ [p]) where
  openPrograms_eq := by rw [openPrograms_concat, h.openPrograms_eq, openAfter]
  leaves := by
    rw [scopeSteps_concat, List.map_append]
    exact .push p.blockParams h.leaves

theorem left (h : Opens calls (programs ++ [p])) (hparams : p.blockParams = q.blockParams) :
    Opens (calls ++ [.left q]) programs where
  openPrograms_eq := by
    rw [openPrograms_concat, h.openPrograms_eq, openAfter, List.dropLast_concat]
  leaves := by
    have hleaves := h.leaves
    rw [List.map_append] at hleaves
    rw [scopeSteps_concat, scopeStep?, ← hparams]
    exact .pop hleaves

/-- Calls that enter and leave what they have entered keep the programs open that were open
before, and on the way there are always some that are. -/
theorem nested (hcalls : Nested calls) (h : Opens earlier programs) :
    Opens (earlier ++ calls) programs ∧
      ∀ before, before <+: calls → ∃ now, Opens (earlier ++ before) now := by
  induction hcalls generalizing earlier programs with
  | nil =>
      rw [List.append_nil]
      refine ⟨h, fun before hbefore => ⟨programs, ?_⟩⟩
      rwa [List.prefix_nil.mp hbefore, List.append_nil]
  | @pair p q inside rest hparams _ _ ihinside ihrest =>
      obtain ⟨hinside, hwithin⟩ := ihinside (h.entered p)
      obtain ⟨hrest, hbehind⟩ := ihrest (hinside.left hparams)
      refine ⟨by simpa using hrest, fun before hbefore => ?_⟩
      rcases List.prefix_cons_iff.mp hbefore with rfl | ⟨within, rfl, hwithin'⟩
      · exact ⟨programs, by rwa [List.append_nil]⟩
      · rcases prefix_append_cases hwithin' with hshort | ⟨behind, rfl, hbehind'⟩
        · simpa using hwithin within hshort
        · rcases List.prefix_cons_iff.mp hbehind' with rfl | ⟨later, rfl, hlater⟩
          · exact ⟨_, by simpa using hinside⟩
          · simpa using hbehind later hlater

/-- What is shown in between makes no difference. -/
theorem of_brackets (h : Opens (brackets calls) programs) : Opens calls programs where
  openPrograms_eq := by
    rw [← h.openPrograms_eq, openPrograms, openPrograms, brackets, List.foldl_filter]
    congr 1
    funext now event
    cases event <;> rfl
  leaves := by
    have hsteps : scopeSteps (brackets calls) = scopeSteps calls := by
      rw [scopeSteps, scopeSteps, brackets, List.filterMap_filter]
      congr 1
      funext event
      cases event <;> rfl
    rw [← hsteps]
    exact h.leaves

/-- At each point of calls that are well nested some programs are open. -/
theorem of_prefix (hcalls : Nested (brackets calls)) (h : before <+: calls) :
    ∃ programs, Opens before programs := by
  obtain ⟨-, hwithin⟩ := nested hcalls nil
  obtain ⟨programs, hopens⟩ := hwithin (brackets before) (h.filter _)
  exact ⟨programs, of_brackets hopens⟩

theorem run_scopeSteps (h : Opens calls programs) (scope : Scope) :
    scope.run (scopeSteps calls) =
      scope.push ((openPrograms calls).flatMap Program.blockParams) := by
  rw [Scope.run_eq_push h.leaves, h.openPrograms_eq, List.flatMap_def]

end Opens

/-- In a trace, each hook was called in the scope that the calls before it have made of the one
at the start, and the last has left what all of them make of it. -/
structure Traced (start : Scope) (state : Scope × List (Scope × Event)) : Prop where
  scope_eq : state.1 = start.run (scopeSteps (callsOf state.2))
  seen_eq {i : Nat} {seen : Scope} {event : Event} : state.2[i]? = some (seen, event) →
    seen = start.run (scopeSteps (callsOf (state.2.take i)))

variable {source : Source} {start scope : Scope} {history : List (Scope × Event)}

theorem Traced.nil (start : Scope) : Traced start (start, []) := ⟨rfl, nofun⟩

theorem Traced.concat (h : Traced start (scope, history)) (event : Event) :
    Traced start ((scopeStep? event).elim scope scope.step, history ++ [(scope, event)]) where
  scope_eq := by
    rw [Visitor.callsOf_concat, run_scopeSteps_concat, ← h.scope_eq]
  seen_eq {i seen event'} hi := by
    rcases Nat.lt_or_ge i history.length with hlt | hge
    · rw [List.getElem?_append_left hlt] at hi
      rw [List.take_append_of_le_length (Nat.le_of_lt hlt)]
      exact h.seen_eq hi
    · have heq : i = history.length := by
        have hlt := (List.getElem?_eq_some_iff.mp hi).1
        rw [List.length_append, List.length_singleton] at hlt
        omega
      subst heq
      rw [List.getElem?_concat_length] at hi
      cases hi
      rw [List.take_left']
      · exact h.scope_eq
      · rfl

theorem preserves_traced (source : Source) (start : Scope) :
    (lowering source).tracing.Preserves (Traced start) where
  enter {p _} h := h.concat (.entered p)
  exit {p _} h := h.concat (.left p)
  hook {x s} h := by
    cases x with
    | element e => exact h.concat (.shown (.element e) _)
    | mustache m => exact h.concat (.shown (.mustache m) _)
    | block b => exact h.concat (.shown (.block b) _)
    | text | comment | mustacheComment => exact h

/-- A run that ends leaves the scope as it was, and from `loweringDepth` on every run ends. In
it, every hook is called in the scope at the start followed by the block params of the
programs that have been entered by then and not been left, the outermost first. What a scope
holds after pushes and matching pops is what it held at the start and what the pushes have
brought in that are left. -/
theorem traverse_lowering_scope (source : Source) (scope : Scope) (p : Program) :
    (∀ depth q left, (lowering source).traverse depth p scope = some (q, left) → left = scope) ∧
    (∀ more, ∃ q history,
      (lowering source).traverse (loweringDepth p + more) p scope = some (q, scope) ∧
      (lowering source).tracing.traverse (loweringDepth p + more) p (scope, []) =
        some (q, scope, history) ∧
      Nested (brackets (callsOf history)) ∧
      ∀ i seen event, history[i]? = some (seen, event) →
        seen = scope.push
          ((openPrograms (callsOf (history.take i))).flatMap Program.blockParams)) ∧
    ∀ steps pushes, Scope.Leaves steps pushes → ∀ name,
      (scope.run steps).contains name = true ↔
        name ∈ scope.names ∨ ∃ names ∈ pushes, name ∈ names := by
  refine ⟨fun depth q left h => ?_, fun more => ?_, fun steps pushes h => Scope.contains_run_iff h⟩
  · have hruns : (lowering source).traverse depth p scope = none ∨
        (lowering source).traverse depth p scope = some (p.lowered source scope, scope) :=
      traverse_eq_none_or p depth
    rcases hruns with hnone | hsome
    · cases h.symm.trans hnone
    · cases h.symm.trans hsome
      rfl
  · have hrun : (lowering source).traverse (loweringDepth p + more) p scope = some (_, scope) :=
      traverse_lowering (Nat.le_add_right _ more)
    obtain ⟨log, hlaw, hrecorded⟩ := (Visitor.bracketLaw (lowering source)).traverse hrun
    obtain ⟨history, htrace, rfl⟩ := Visitor.exists_trace (hrecorded [])
    have hnested : Nested (brackets (callsOf history)) :=
      (Visitor.BracketedProgram.bracketed hlaw).nested
    have htraced : Traced scope (scope, history) :=
      (preserves_traced source scope).traverse (.nil scope) htrace
    refine ⟨_, history, hrun, htrace, hnested, fun i seen event hi => ?_⟩
    have hprefix : callsOf (history.take i) <+: callsOf history :=
      (List.take_prefix i history).map _
    obtain ⟨programs, hopens⟩ := Opens.of_prefix hnested hprefix
    rw [htraced.seen_eq hi, hopens.run_scopeSteps]

/-- `{{#each as |a|}}<Foo as |a|><p></p></Foo>{{/each}}` -/
def repeating : Program :=
  let inner := { Build.element "Foo" .synthetic with
    blockParams := ["a"], children := [.element (Build.element "p" .synthetic)] }
  Build.program [.block (Build.block ⟨Build.path "each", [], Build.hash []⟩
    (Build.program [.element inner] ["a"]) none .synthetic)] []

/-- At the innermost element a name is there three times, and once it has been dropped twice it
still is. -/
theorem traverse_lowering_scope_shadowing :
    let source := Source.ofText none
    let start : Scope := ⟨["a", "b"]⟩
    let steps : List ScopeStep := [.push ["a"], .push ["a", "c"], .pop 2]
    (∃ q history, (lowering source).traverse 6 repeating start = some (q, start) ∧
      (lowering source).tracing.traverse 6 repeating (start, []) = some (q, start, history) ∧
      ∃ seen e action, history[6]? = some (seen, .shown (.element e) action) ∧ e.tag = "p" ∧
        seen = start.push
          ((openPrograms (callsOf (history.take 6))).flatMap Program.blockParams) ∧
        seen = ⟨["a", "b", "a", "a"]⟩) ∧
      Scope.Leaves steps [["a"]] ∧
      (start.run steps).contains "a" = true ∧ (start.run steps).contains "c" = false := by
  intro source start steps
  obtain ⟨-, hruns, hsteps⟩ := traverse_lowering_scope source start repeating
  obtain ⟨q, history, hrun, htrace, -, hseen⟩ := hruns 0
  have hcall : ∃ e action, ((lowering source).tracing.traverse 6 repeating (start, [])).bind
      (fun r => r.2.2[6]?) = some (⟨["a", "b", "a", "a"]⟩, .shown (.element e) action) ∧
        e.tag = "p" := ⟨_, _, rfl, rfl⟩
  have hleaves : Scope.Leaves steps [["a"]] := .pop (.push ["a", "c"] (.push ["a"] .nil))
  refine ⟨⟨q, history, hrun, htrace, ?_⟩, hleaves, ?_, ?_⟩
  · obtain ⟨e, action, hcall, htag⟩ := hcall
    have hsix : (lowering source).tracing.traverse 6 repeating (start, []) =
      some (q, start, history) := htrace
    rw [hsix, Option.bind_some] at hcall
    exact ⟨_, e, action, hcall, htag, hseen 6 _ _ hcall, rfl⟩
  · exact (hsteps steps _ hleaves "a").mpr (.inl (by decide))
  · exact Bool.eq_false_iff.mpr fun h => absurd ((hsteps steps _ hleaves "c").mp h) (by decide)

end Component

end CurlyTemplate
