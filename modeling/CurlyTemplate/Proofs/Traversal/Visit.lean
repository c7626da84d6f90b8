import CurlyTemplate.Traversal.Visitor

/-!
# Single visits

What a visit does, by the action that the hook asks for, and what a walk through a list
does, by the visits of its statements. These lemmas hold of every visitor. A traversal
that finishes within some depth gives the same at every greater depth
(`traverse_mono`), so the depth bounds the work and has no part in the result.
-/

namespace CurlyTemplate

namespace Visitor

variable {σ : Type} {v : Visitor σ} {visit : Visit σ} {depth : Nat} {x y left : Statement}
  {s t : σ}

theorem visitStatement_of_keep (h : v.hook x s = ((.keep, y), t)) :
    v.visitStatement (depth + 1) x s =
      (v.visitInside (v.visitStatement depth) y t).map fun (z, u) => (some z, u) := by
  simp only [visitStatement, h]
  cases v.visitInside (v.visitStatement depth) y t <;> rfl

theorem visitStatement_of_replace (h : v.hook x s = ((.replace y, left), t)) :
    v.visitStatement (depth + 1) x s = v.visitStatement depth y t := by
  rw [visitStatement, h]

theorem visitStatement_of_remove (h : v.hook x s = ((.remove, left), t)) :
    v.visitStatement (depth + 1) x s = some (none, t) := by
  rw [visitStatement, h]

/-- Visits that leave the state as it is can be read off one by one. -/
theorem walk_eq_map {f : Statement → Statement} {statements : List Statement}
    (h : ∀ x ∈ statements, visit x s = some (some (f x), s)) :
    walk visit statements s = some (statements.map f, s) := by
  induction statements with
  | nil => rfl
  | cons x rest ih =>
      have hx := h x List.mem_cons_self
      have hrest := ih fun y hy => h y (List.mem_cons_of_mem x hy)
      simp [walk, hx, hrest]

/-- Every visit that ends with the one ends in the same way with the other. -/
def Extends (visit visit' : Visit σ) : Prop :=
  ∀ ⦃x s r⦄, visit x s = some r → visit' x s = some r

section Extends

variable {visit' : Visit σ} (hvisit : Extends visit visit')

include hvisit

theorem walk_extends {statements : List Statement} {s : σ} {r : List Statement × σ}
    (h : walk visit statements s = some r) : walk visit' statements s = some r := by
  induction statements generalizing s r with
  | nil => exact h
  | cons x rest ih =>
      simp only [walk, Option.bind_eq_bind, Option.bind_eq_some_iff] at h ⊢
      obtain ⟨⟨left, t⟩, hx, ⟨others, u⟩, hrest, hr⟩ := h
      exact ⟨(left, t), hvisit hx, (others, u), ih hrest, hr⟩

theorem visitProgram_extends {p : Program} {s : σ} {r : Program × σ}
    (h : v.visitProgram visit p s = some r) : v.visitProgram visit' p s = some r := by
  simp only [visitProgram, Option.bind_eq_bind, Option.bind_eq_some_iff] at h ⊢
  obtain ⟨body, hbody, hr⟩ := h
  exact ⟨body, walk_extends hvisit hbody, hr⟩

theorem visitInverse_extends {inverse : Option Program} {s : σ} {r : Option Program × σ}
    (h : v.visitInverse visit inverse s = some r) :
    v.visitInverse visit' inverse s = some r := by
  cases inverse with
  | none => exact h
  | some p =>
      simp only [visitInverse, Option.bind_eq_bind, Option.bind_eq_some_iff] at h ⊢
      obtain ⟨q, hq, hr⟩ := h
      exact ⟨q, visitProgram_extends hvisit hq, hr⟩

theorem visitInside_extends {r : Statement × σ} (h : v.visitInside visit x s = some r) :
    v.visitInside visit' x s = some r := by
  cases x with
  | element e =>
      simp only [visitInside, Option.bind_eq_bind, Option.bind_eq_some_iff] at h ⊢
      obtain ⟨children, hchildren, hr⟩ := h
      exact ⟨children, walk_extends hvisit hchildren, hr⟩
  | block b =>
      simp only [visitInside, Option.bind_eq_bind, Option.bind_eq_some_iff] at h ⊢
      obtain ⟨program, hprogram, inverse, hinverse, hr⟩ := h
      exact ⟨program, visitProgram_extends hvisit hprogram, inverse,
        visitInverse_extends hvisit hinverse, hr⟩
  | mustache | text | comment | mustacheComment => exact h

end Extends

theorem visitStatement_extends_succ (v : Visitor σ) (depth : Nat) :
    Extends (v.visitStatement depth) (v.visitStatement (depth + 1)) := by
  induction depth with
  | zero =>
      intro x s r h
      cases h
  | succ depth ih =>
      intro x s r h
      match hhook : v.hook x s with
      | ((.keep, y), t) =>
          rw [visitStatement_of_keep hhook] at h ⊢
          obtain ⟨z, hz, hr⟩ := Option.map_eq_some_iff.mp h
          rw [visitInside_extends ih hz]
          exact congrArg some hr
      | ((.replace y, left), t) =>
          rw [visitStatement_of_replace hhook] at h ⊢
          exact ih h
      | ((.remove, left), t) =>
          rw [visitStatement_of_remove hhook] at h ⊢
          exact h

theorem visitStatement_extends (v : Visitor σ) {depth depth' : Nat} (h : depth ≤ depth') :
    Extends (v.visitStatement depth) (v.visitStatement depth') := by
  induction h with
  | refl => exact fun _ _ _ hr => hr
  | step _ ih => exact fun _ _ _ hr => visitStatement_extends_succ v _ (ih hr)

theorem traverse_mono {depth' : Nat} {p : Program} {r : Program × σ} (hdepth : depth ≤ depth')
    (h : v.traverse depth p s = some r) : v.traverse depth' p s = some r :=
  visitProgram_extends (visitStatement_extends v hdepth) h

end Visitor

end CurlyTemplate
