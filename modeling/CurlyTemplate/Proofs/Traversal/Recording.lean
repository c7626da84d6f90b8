import CurlyTemplate.Proofs.Traversal.Visit

/-!
# Accounts of a run

`recording v` is the visitor `v` with an account of the calls of its hooks beside its
state. The account has no influence on the run, and a run only adds to it.

What holds of every run of a visitor is said by a `Law`: a relation between what a visit
was given, what it left and the calls in between, for statements, lists and programs,
with a proof for each thing that a traversal can do. `Law.traverse` is the one induction
over runs; a law only has to look at single steps.
-/

namespace CurlyTemplate

/-- Whether a statement is shown to a visitor. Text and comments are not. -/
def Statement.isShown : Statement → Bool
  | .element _ | .mustache _ | .block _ => true
  | _ => false

namespace Visitor

/-- A call of a hook. -/
inductive Event where
  | entered (p : Program)
  | left (p : Program)
  /-- A statement as it was shown, and what was to become of it. -/
  | shown (x : Statement) (action : Action)

def Event.answer? : Event → Option (Statement × Action)
  | .shown x action => some (x, action)
  | _ => none

/-- The statements that were shown, each with what was to become of it. -/
def answers (calls : List Event) : List (Statement × Action) := calls.filterMap Event.answer?

theorem answers_append (calls later : List Event) :
    answers (calls ++ later) = answers calls ++ answers later :=
  List.filterMap_append

@[simp] theorem answers_shown (x : Statement) (action : Action) (calls : List Event) :
    answers (.shown x action :: calls) = (x, action) :: answers calls := rfl

/-- Entering and leaving shows nothing. -/
@[simp] theorem answers_program (p q : Program) (calls : List Event) :
    answers (.entered p :: (calls ++ [.left q])) = answers calls := by
  have hlast : answers [.left q] = [] := rfl
  have hfirst : answers (.entered p :: (calls ++ [.left q])) = answers (calls ++ [.left q]) := rfl
  rw [hfirst, answers_append, hlast, List.append_nil]

variable {σ : Type} {v : Visitor σ}

/-- The visitor with an account of the calls of its hooks, in order. -/
def recording (v : Visitor σ) : Visitor (σ × List Event) where
  enter p s := (v.enter p s.1, s.2 ++ [.entered p])
  exit p s := (v.exit p s.1, s.2 ++ [.left p])
  element e s :=
    let (answer, t) := v.element e s.1
    (answer, t, s.2 ++ [.shown (.element e) answer.1])
  mustache m s :=
    let (answer, t) := v.mustache m s.1
    (answer, t, s.2 ++ [.shown (.mustache m) answer.1])
  block b s :=
    let (answer, t) := v.block b s.1
    (answer, t, s.2 ++ [.shown (.block b) answer.1])

/-- Each answer is one that the visitor gives about the statement, in some state. -/
def Gave (v : Visitor σ) (answers : List (Statement × Action)) : Prop :=
  ∀ answer ∈ answers, ∃ s, (v.hook answer.1 s).1.1 = answer.2

/-- The call for a statement, if there is one. -/
def callFor (x : Statement) (action : Action) : List Event :=
  if x.isShown then [.shown x action] else []

variable {x y k : Statement} {s t u : σ} {action : Action} {log calls : List Event}

theorem hook_recording (h : v.hook x s = ((action, y), t)) (log : List Event) :
    v.recording.hook x (s, log) = ((action, y), (t, log ++ callFor x action)) := by
  cases x <;> simp_all [hook, recording, callFor, Statement.isShown]

/-- What a kept statement is: changed by the hook for its kind, or not shown at all. -/
theorem hook_keep_cases (h : v.hook x s = ((.keep, y), t)) :
    (∃ e k, x = .element e ∧ y = .element k ∧ v.element e s = ((.keep, k), t)) ∨
    (∃ m k, x = .mustache m ∧ y = .mustache k ∧ v.mustache m s = ((.keep, k), t)) ∨
    (∃ b k, x = .block b ∧ y = .block k ∧ v.block b s = ((.keep, k), t)) ∨
    (x.isShown = false ∧ y = x ∧ t = s) := by
  cases x with
  | element e =>
      simp only [hook, Prod.mk.injEq] at h
      obtain ⟨⟨haction, rfl⟩, rfl⟩ := h
      refine .inl ⟨e, _, rfl, rfl, ?_⟩
      rw [← haction]
  | mustache m =>
      simp only [hook, Prod.mk.injEq] at h
      obtain ⟨⟨haction, rfl⟩, rfl⟩ := h
      refine .inr (.inl ⟨m, _, rfl, rfl, ?_⟩)
      rw [← haction]
  | block b =>
      simp only [hook, Prod.mk.injEq] at h
      obtain ⟨⟨haction, rfl⟩, rfl⟩ := h
      refine .inr (.inr (.inl ⟨b, _, rfl, rfl, ?_⟩))
      rw [← haction]
  | text | comment | mustacheComment =>
      cases h
      exact .inr (.inr (.inr ⟨rfl, rfl, rfl⟩))

theorem isShown_of_hook (h : v.hook x s = ((action, y), t)) (hne : action ≠ .keep) :
    x.isShown = true := by
  cases x with
  | element | mustache | block => rfl
  | text | comment | mustacheComment =>
      cases h
      exact absurd rfl hne

/-- What a relation on visits of programs says of the body behind `{{else}}`. -/
def OnInverse (program : Program → σ → Program → σ → List Event → Prop) :
    Option Program → σ → Option Program → σ → List Event → Prop
  | none, s, q, t, calls => q = none ∧ t = s ∧ calls = []
  | some p, s, q, t, calls => ∃ r, q = some r ∧ program p s r t calls

/-- Relations that the visits of a visitor satisfy, because each of its steps does. The
arguments are what was visited, the state before, what was left, the state after, and the
calls in between. -/
structure Law (v : Visitor σ) where
  statement : Statement → σ → Option Statement → σ → List Event → Prop
  statements : List Statement → σ → List Statement → σ → List Event → Prop
  program : Program → σ → Program → σ → List Event → Prop
  nil : ∀ s, statements [] s [] s []
  cons : ∀ {x rest s left t others u calls later}, statement x s left t calls →
    statements rest t others u later →
      statements (x :: rest) s (left.toList ++ others) u (calls ++ later)
  body : ∀ {p s body t calls}, statements p.body (v.enter p s) body t calls →
    program p s { p with body := body } (v.exit { p with body := body } t)
      (.entered p :: (calls ++ [.left { p with body := body }]))
  unseen : ∀ {x s}, x.isShown = false → statement x s (some x) s []
  element : ∀ {e k s t children u calls}, v.element e s = ((.keep, k), t) →
    statements k.children t children u calls →
      statement (.element e) s (some (.element { k with children := children })) u
        (.shown (.element e) .keep :: calls)
  mustache : ∀ {m k s t}, v.mustache m s = ((.keep, k), t) →
    statement (.mustache m) s (some (.mustache k)) t [.shown (.mustache m) .keep]
  block : ∀ {b k s t q u r w calls later}, v.block b s = ((.keep, k), t) →
    program k.program t q u calls → OnInverse program k.inverse u r w later →
      statement (.block b) s (some (.block { k with program := q, inverse := r })) w
        (.shown (.block b) .keep :: (calls ++ later))
  replace : ∀ {x y k s t left u calls}, v.hook x s = ((.replace y, k), t) →
    statement y t left u calls → statement x s left u (.shown x (.replace y) :: calls)
  remove : ∀ {x k s t}, v.hook x s = ((.remove, k), t) →
    statement x s none t [.shown x .remove]

namespace Law

/-- The visits of the one kind satisfy a law, and those of the other do the same with an
account of the calls. -/
def Governs (law : Law v) (visit : Visit σ) (visit' : Visit (σ × List Event)) : Prop :=
  ∀ ⦃x s left t⦄, visit x s = some (left, t) →
    ∃ calls, law.statement x s left t calls ∧
      ∀ log, visit' x (s, log) = some (left, t, log ++ calls)

variable {law : Law v} {visit : Visit σ} {visit' : Visit (σ × List Event)}

section Governs

variable (hvisit : law.Governs visit visit')

include hvisit

theorem walk {statements left : List Statement} (h : walk visit statements s = some (left, t)) :
    ∃ calls, law.statements statements s left t calls ∧
      ∀ log, Visitor.walk visit' statements (s, log) = some (left, t, log ++ calls) := by
  induction statements generalizing s left with
  | nil =>
      cases h
      refine ⟨[], law.nil _, fun log => ?_⟩
      rw [List.append_nil, Visitor.walk]
  | cons x rest ih =>
      simp only [Visitor.walk, Option.bind_eq_bind, Option.bind_eq_some_iff] at h
      obtain ⟨⟨first, w⟩, hx, ⟨others, z⟩, hrest, heq⟩ := h
      cases heq
      obtain ⟨calls, hfirst, hrun⟩ := hvisit hx
      obtain ⟨later, hothers, hlater⟩ := ih hrest
      refine ⟨calls ++ later, law.cons hfirst hothers, fun log => ?_⟩
      simp [Visitor.walk, hrun, hlater]

theorem visitProgram {p q : Program} (h : v.visitProgram visit p s = some (q, t)) :
    ∃ calls, law.program p s q t calls ∧
      ∀ log, v.recording.visitProgram visit' p (s, log) = some (q, t, log ++ calls) := by
  simp only [Visitor.visitProgram, Option.bind_eq_bind, Option.bind_eq_some_iff] at h
  obtain ⟨⟨body, w⟩, hbody, heq⟩ := h
  cases heq
  obtain ⟨calls, hlaw, hrun⟩ := walk hvisit hbody
  refine ⟨_, law.body hlaw, fun log => ?_⟩
  simp [Visitor.visitProgram, recording, hrun]

theorem visitInverse {inverse r : Option Program}
    (h : v.visitInverse visit inverse s = some (r, t)) :
    ∃ calls, OnInverse law.program inverse s r t calls ∧
      ∀ log, v.recording.visitInverse visit' inverse (s, log) = some (r, t, log ++ calls) := by
  cases inverse with
  | none =>
      cases h
      refine ⟨[], ⟨rfl, rfl, rfl⟩, fun log => ?_⟩
      rw [List.append_nil, Visitor.visitInverse]
  | some p =>
      simp only [Visitor.visitInverse, Option.bind_eq_bind, Option.bind_eq_some_iff] at h
      obtain ⟨⟨q, w⟩, hq, heq⟩ := h
      cases heq
      obtain ⟨calls, hlaw, hrun⟩ := visitProgram hvisit hq
      refine ⟨calls, ⟨q, rfl, hlaw⟩, fun log => ?_⟩
      simp [Visitor.visitInverse, hrun]

theorem keep (hhook : v.hook x s = ((.keep, y), t))
    (h : v.visitInside visit y t = some (k, u)) :
    ∃ calls, law.statement x s (some k) u (callFor x .keep ++ calls) ∧
      ∀ log, v.recording.visitInside visit' y (t, log) = some (k, u, log ++ calls) := by
  rcases hook_keep_cases hhook with ⟨e, e', rfl, rfl, he⟩ | ⟨m, m', rfl, rfl, hm⟩ |
    ⟨b, b', rfl, rfl, hb⟩ | ⟨hx, rfl, rfl⟩
  · simp only [visitInside, Option.bind_eq_bind, Option.bind_eq_some_iff] at h
    obtain ⟨⟨children, w⟩, hchildren, heq⟩ := h
    cases heq
    obtain ⟨calls, hlaw, hrun⟩ := walk hvisit hchildren
    refine ⟨calls, law.element he hlaw, fun log => ?_⟩
    simp [visitInside, hrun]
  · cases h
    refine ⟨[], law.mustache hm, fun log => ?_⟩
    simp [visitInside]
  · simp only [visitInside, Option.bind_eq_bind, Option.bind_eq_some_iff] at h
    obtain ⟨⟨q, w⟩, hq, ⟨r, z⟩, hr, heq⟩ := h
    cases heq
    obtain ⟨calls, hlaw, hrun⟩ := visitProgram hvisit hq
    obtain ⟨later, hlater, hrun'⟩ := visitInverse hvisit hr
    have hblock := law.block hb hlaw hlater
    refine ⟨calls ++ later, hblock, fun log => ?_⟩
    simp [visitInside, hrun, hrun']
  · have hlaw := law.unseen (s := t) hx
    cases y with
    | element | mustache | block => cases hx
    | text | comment | mustacheComment =>
        cases h
        refine ⟨[], hlaw, fun log => ?_⟩
        simp [visitInside]

end Governs

theorem visitStatement (law : Law v) (depth : Nat) :
    law.Governs (v.visitStatement depth) (v.recording.visitStatement depth) := by
  induction depth with
  | zero =>
      intro x s left t h
      cases h
  | succ depth ih =>
      intro x s left t h
      match hhook : v.hook x s with
      | ((.keep, y), u) =>
          rw [visitStatement_of_keep hhook] at h
          obtain ⟨⟨z, w⟩, hinside, heq⟩ := Option.map_eq_some_iff.mp h
          cases heq
          obtain ⟨calls, hlaw, hrun⟩ := law.keep ih hhook hinside
          refine ⟨_, hlaw, fun log => ?_⟩
          rw [visitStatement_of_keep (hook_recording hhook log), hrun, Option.map_some,
            List.append_assoc]
      | ((.replace y, k), u) =>
          rw [visitStatement_of_replace hhook] at h
          obtain ⟨calls, hlaw, hrun⟩ := ih h
          have hshown : callFor x (.replace y) = [.shown x (.replace y)] :=
            if_pos (isShown_of_hook hhook nofun)
          refine ⟨_, law.replace hhook hlaw, fun log => ?_⟩
          rw [visitStatement_of_replace (hook_recording hhook log), hrun, hshown,
            List.append_assoc, List.singleton_append]
      | ((.remove, k), u) =>
          rw [visitStatement_of_remove hhook] at h
          cases h
          have hshown : callFor x .remove = [.shown x .remove] :=
            if_pos (isShown_of_hook hhook nofun)
          refine ⟨_, law.remove hhook, fun log => ?_⟩
          rw [visitStatement_of_remove (hook_recording hhook log), hshown]

/-- A run of a visitor is a run of it with an account of the calls, and satisfies each of
its laws. -/
theorem traverse (law : Law v) {depth : Nat} {p q : Program}
    (h : v.traverse depth p s = some (q, t)) :
    ∃ calls, law.program p s q t calls ∧
      ∀ log, v.recording.traverse depth p (s, log) = some (q, t, log ++ calls) :=
  visitProgram (law.visitStatement depth) h

/-- What is put down as an answer was one. -/
def answering (v : Visitor σ) : Law v where
  statement _ _ _ _ calls := v.Gave (answers calls)
  statements _ _ _ _ calls := v.Gave (answers calls)
  program _ _ _ _ calls := v.Gave (answers calls)
  nil _ := nofun
  cons hfirst hrest := by
    rw [answers_append]
    exact List.forall_mem_append.mpr ⟨hfirst, hrest⟩
  body hbody := by rwa [answers_program]
  unseen _ := nofun
  element {e k s _ _ _ _} he hchildren := by
    rw [answers_shown]
    exact List.forall_mem_cons.mpr ⟨⟨s, by simp [hook, he]⟩, hchildren⟩
  mustache {m k s _} hm := by
    rw [answers_shown]
    exact List.forall_mem_cons.mpr ⟨⟨s, by simp [hook, hm]⟩, nofun⟩
  block {b k s _ _ _ _ _ _ later} hb hprogram hinverse := by
    have hlater : v.Gave (answers later) := by
      cases hk : k.inverse with
      | none =>
          rw [hk] at hinverse
          obtain ⟨-, -, rfl⟩ := hinverse
          exact nofun
      | some p =>
          rw [hk] at hinverse
          obtain ⟨_, -, hp⟩ := hinverse
          exact hp
    rw [answers_shown, answers_append]
    exact List.forall_mem_cons.mpr
      ⟨⟨s, by simp [hook, hb]⟩, List.forall_mem_append.mpr ⟨hprogram, hlater⟩⟩
  replace {x y _ s _ _ _ _} hhook hleft := by
    rw [answers_shown]
    exact List.forall_mem_cons.mpr ⟨⟨s, by rw [hhook]⟩, hleft⟩
  remove {x _ s _} hhook := by
    rw [answers_shown]
    exact List.forall_mem_cons.mpr ⟨⟨s, by rw [hhook]⟩, nofun⟩

end Law

end Visitor

end CurlyTemplate
