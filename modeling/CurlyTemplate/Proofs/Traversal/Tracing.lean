import CurlyTemplate.Proofs.Traversal.Recording

/-!
# Runs with their states

`tracing v` is the visitor `v` with an account of the calls of its hooks beside its state,
as `recording v` is, and in it each call has the state that the hook was given. Neither
account has an influence on the run: a visitor that does what another one does, with more
in its state, runs as that one does (`Over.traverse`).

What all hooks of a visitor preserve is preserved by a run (`Preserves.traverse`).
-/

namespace CurlyTemplate

namespace Visitor

variable {σ τ : Type} {v : Visitor σ} {w : Visitor τ}

/-- A visitor does what another one does and has more in its state. -/
structure Over (w : Visitor τ) (v : Visitor σ) (view : τ → σ) : Prop where
  enter : ∀ p s, v.enter p (view s) = view (w.enter p s)
  exit : ∀ p s, v.exit p (view s) = view (w.exit p s)
  hook : ∀ x s, v.hook x (view s) = ((w.hook x s).1, view (w.hook x s).2)

namespace Over

variable {view : τ → σ} {visit : Visit σ} {visit' : Visit τ}

/-- The visits of the one kind end as those of the other do, with more in their state. -/
def Views (view : τ → σ) (visit : Visit σ) (visit' : Visit τ) : Prop :=
  ∀ x s, visit x (view s) = (visit' x s).map fun r => (r.1, view r.2)

theorem walk (hvisit : Views view visit visit') (statements : List Statement) (s : τ) :
    Visitor.walk visit statements (view s) =
      (Visitor.walk visit' statements s).map fun r => (r.1, view r.2) := by
  induction statements generalizing s with
  | nil => rfl
  | cons x rest ih =>
      rw [Visitor.walk, Visitor.walk, hvisit]
      cases visit' x s with
      | none => rfl
      | some r =>
          have hrest := ih r.2
          cases h : Visitor.walk visit' rest r.2 <;> simp [hrest, h]

section Inside

variable (h : w.Over v view) (hvisit : Views view visit visit')

include h hvisit

theorem visitProgram (p : Program) (s : τ) :
    v.visitProgram visit p (view s) =
      (w.visitProgram visit' p s).map fun r => (r.1, view r.2) := by
  have hbody := walk hvisit p.body (w.enter p s)
  cases hrun : Visitor.walk visit' p.body (w.enter p s) <;>
    simp [Visitor.visitProgram, h.enter, h.exit, hbody, hrun]

theorem visitInverse (inverse : Option Program) (s : τ) :
    v.visitInverse visit inverse (view s) =
      (w.visitInverse visit' inverse s).map fun r => (r.1, view r.2) := by
  cases inverse with
  | none => rfl
  | some p =>
      have hprogram := visitProgram h hvisit p s
      cases hrun : w.visitProgram visit' p s <;> simp [Visitor.visitInverse, hprogram, hrun]

theorem visitInside (x : Statement) (s : τ) :
    v.visitInside visit x (view s) =
      (w.visitInside visit' x s).map fun r => (r.1, view r.2) := by
  cases x with
  | element e =>
      have hchildren := walk hvisit e.children s
      cases hrun : Visitor.walk visit' e.children s <;>
        simp [Visitor.visitInside, hchildren, hrun]
  | block b =>
      have hprogram := visitProgram h hvisit b.program s
      cases hrun : w.visitProgram visit' b.program s with
      | none => simp [Visitor.visitInside, hprogram, hrun]
      | some r =>
          have hinverse := visitInverse h hvisit b.inverse r.2
          cases hrun' : w.visitInverse visit' b.inverse r.2 <;>
            simp [Visitor.visitInside, hprogram, hrun, hinverse, hrun']
  | mustache | text | comment | mustacheComment => rfl

end Inside

variable (h : w.Over v view)

include h

theorem visitStatement (depth : Nat) :
    Views view (v.visitStatement depth) (w.visitStatement depth) := by
  induction depth with
  | zero => exact fun _ _ => rfl
  | succ depth ih =>
      intro x s
      have hview := h.hook x s
      match hhook : w.hook x s with
      | ((.keep, y), t) =>
          rw [hhook] at hview
          rw [visitStatement_of_keep hview, visitStatement_of_keep hhook, visitInside h ih,
            Option.map_map, Option.map_map]
          rfl
      | ((.replace y, left), t) =>
          rw [hhook] at hview
          rw [visitStatement_of_replace hview, visitStatement_of_replace hhook, ih]
      | ((.remove, left), t) =>
          rw [hhook] at hview
          rw [visitStatement_of_remove hview, visitStatement_of_remove hhook]
          rfl

theorem traverse (depth : Nat) (p : Program) (s : τ) :
    v.traverse depth p (view s) = (w.traverse depth p s).map fun r => (r.1, view r.2) :=
  visitProgram h (visitStatement h depth) p s

end Over

/-- The visitor with an account of the calls of its hooks, in order, each with the state that
the hook was given. -/
def tracing (v : Visitor σ) : Visitor (σ × List (σ × Event)) where
  enter p s := (v.enter p s.1, s.2 ++ [(s.1, .entered p)])
  exit p s := (v.exit p s.1, s.2 ++ [(s.1, .left p)])
  element e s :=
    let (answer, t) := v.element e s.1
    (answer, t, s.2 ++ [(s.1, .shown (.element e) answer.1)])
  mustache m s :=
    let (answer, t) := v.mustache m s.1
    (answer, t, s.2 ++ [(s.1, .shown (.mustache m) answer.1)])
  block b s :=
    let (answer, t) := v.block b s.1
    (answer, t, s.2 ++ [(s.1, .shown (.block b) answer.1)])

/-- The calls of a history, without the states. -/
def callsOf (history : List (σ × Event)) : List Event := history.map Prod.snd

theorem callsOf_concat (history : List (σ × Event)) (s : σ) (event : Event) :
    callsOf (history ++ [(s, event)]) = callsOf history ++ [event] :=
  List.map_append

theorem tracing_over_recording (v : Visitor σ) :
    v.tracing.Over v.recording fun s => (s.1, callsOf s.2) where
  enter p s := by simp [recording, tracing, callsOf_concat]
  exit p s := by simp [recording, tracing, callsOf_concat]
  hook x s := by cases x <;> simp [hook, recording, tracing, callsOf_concat]

/-- A run that was recorded can be traced. -/
theorem exists_trace {depth : Nat} {p q : Program} {s t : σ} {log : List Event}
    (h : v.recording.traverse depth p (s, []) = some (q, t, log)) :
    ∃ history, v.tracing.traverse depth p (s, []) = some (q, t, history) ∧ callsOf history = log := by
  have hview := (tracing_over_recording v).traverse depth p (s, [])
  obtain ⟨⟨q', t', history⟩, hrun, heq⟩ := Option.map_eq_some_iff.mp (hview.symm.trans h)
  cases heq
  exact ⟨history, hrun, rfl⟩

/-- All hooks of a visitor preserve a property of its state. -/
structure Preserves (v : Visitor σ) (holds : σ → Prop) : Prop where
  enter : ∀ {p s}, holds s → holds (v.enter p s)
  exit : ∀ {p s}, holds s → holds (v.exit p s)
  hook : ∀ {x s}, holds s → holds (v.hook x s).2

namespace Preserves

variable {holds : σ → Prop}

/-- Each visit preserves what the hooks preserve. -/
def law (h : v.Preserves holds) : Law v where
  statement _ s _ t _ := holds s → holds t
  statements _ s _ t _ := holds s → holds t
  program _ s _ t _ := holds s → holds t
  nil _ := id
  cons hfirst hrest hs := hrest (hfirst hs)
  body hbody hs := h.exit (hbody (h.enter hs))
  unseen _ := id
  element {e k s t _ _ _} he hchildren hs := by
    have hhook : holds (v.element e s).2 := h.hook (x := .element e) hs
    rw [he] at hhook
    exact hchildren hhook
  mustache {m k s t} hm hs := by
    have hhook : holds (v.mustache m s).2 := h.hook (x := .mustache m) hs
    rwa [hm] at hhook
  block {b k s t q u r w _ _} hb hprogram hinverse hs := by
    have hhook : holds (v.block b s).2 := h.hook (x := .block b) hs
    rw [hb] at hhook
    have hu := hprogram hhook
    cases hk : k.inverse with
    | none =>
        rw [hk] at hinverse
        obtain ⟨-, rfl, -⟩ := hinverse
        exact hu
    | some p =>
        rw [hk] at hinverse
        obtain ⟨_, -, hp⟩ := hinverse
        exact hp hu
  replace {x y k s t _ _ _} hx hy hs := by
    have hhook : holds (v.hook x s).2 := h.hook hs
    rw [hx] at hhook
    exact hy hhook
  remove {x k s t} hx hs := by
    have hhook : holds (v.hook x s).2 := h.hook hs
    rwa [hx] at hhook

theorem traverse (h : v.Preserves holds) {depth : Nat} {p q : Program} {s t : σ}
    (hs : holds s) (hrun : v.traverse depth p s = some (q, t)) : holds t := by
  obtain ⟨_, hlaw, -⟩ := h.law.traverse hrun
  exact hlaw hs

end Preserves

end Visitor

end CurlyTemplate
