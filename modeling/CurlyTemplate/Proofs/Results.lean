/-!
# Results of steps that may fail

When a sequence of steps succeeds, and with what: every step has succeeded.
-/

namespace CurlyTemplate

variable {ε α β : Type}

@[simp] theorem ok_bind (a : α) (f : α → Except ε β) : (Except.ok a >>= f) = f a := rfl

@[simp] theorem error_bind (e : ε) (f : α → Except ε β) :
    (Except.error e >>= f) = Except.error e := rfl

theorem bind_eq_ok_iff {x : Except ε α} {f : α → Except ε β} {b : β} :
    (x >>= f) = .ok b ↔ ∃ a, x = .ok a ∧ f a = .ok b := by
  cases x <;> simp

theorem map_eq_ok_iff {x : Except ε α} {f : α → β} {b : β} :
    x.map f = .ok b ↔ ∃ a, x = .ok a ∧ f a = b := by
  cases x <;> simp [Except.map]

/-- Where every step on a list succeeds, so do all together. -/
theorem mapM_eq_ok {f : α → Except ε β} {g : α → β} {xs : List α}
    (h : ∀ x ∈ xs, f x = .ok (g x)) : xs.mapM f = .ok (xs.map g) := by
  induction xs with
  | nil => rfl
  | cons x rest ih =>
      rw [List.forall_mem_cons] at h
      rw [List.mapM_cons, h.1, ok_bind, ih h.2]
      rfl

/-- What all steps on a list yield together comes from one of them. -/
theorem exists_mem_of_mapM {f : α → Except ε β} {xs : List α} {ys : List β}
    (h : xs.mapM f = .ok ys) {y : β} (hy : y ∈ ys) : ∃ x ∈ xs, f x = .ok y := by
  induction xs generalizing ys with
  | nil =>
      cases h
      cases hy
  | cons x rest ih =>
      rw [List.mapM_cons, bind_eq_ok_iff] at h
      obtain ⟨z, hz, h⟩ := h
      obtain ⟨zs, hzs, h⟩ := bind_eq_ok_iff.mp h
      cases h
      rcases List.mem_cons.mp hy with rfl | hy
      · exact ⟨x, List.mem_cons_self, hz⟩
      · obtain ⟨w, hw, hread⟩ := ih hzs hy
        exact ⟨w, List.mem_cons_of_mem _ hw, hread⟩

/-- The first step that fails decides. -/
theorem mapM_eq_error {f : α → Except ε β} {xs : List α} {x : α} {e : ε}
    (h : ∀ x ∈ xs, ∃ y, f x = .ok y) (hx : f x = .error e) (rest : List α) :
    (xs ++ x :: rest).mapM f = .error e := by
  induction xs with
  | nil => rw [List.nil_append, List.mapM_cons, hx, error_bind]
  | cons y xs ih =>
      obtain ⟨⟨z, hz⟩, h⟩ := List.forall_mem_cons.mp h
      rw [List.cons_append, List.mapM_cons, hz, ok_bind, ih h, error_bind]

end CurlyTemplate
