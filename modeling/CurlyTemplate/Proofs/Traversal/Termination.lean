import CurlyTemplate.Proofs.Traversal.Visit
import CurlyTemplate.Proofs.Tree.Statements

/-!
# Traversals that end

A visit goes on with the statements right inside what is kept, and with what is put in the
place of what is replaced. The former are smaller, the latter may be of any size, so the
size alone does not bound a run. It ends when every replacement uses something up: of a
budget that the visitor has in its state, or of a weight of the statements themselves. The
induction is on the sum of the two first, and on the size second.
-/

namespace CurlyTemplate

namespace Visitor

variable {σ : Type} {v : Visitor σ} {budget : σ → Nat} {weight : Statement → Nat}

/-- A visitor that only grows what it puts in the place of something else, and for that has
a budget and the weight of what it replaces. -/
structure Dwindles (v : Visitor σ) (budget : σ → Nat) (weight : Statement → Nat) : Prop where
  enter : ∀ p s, budget (v.enter p s) ≤ budget s
  exit : ∀ p s, budget (v.exit p s) ≤ budget s
  keep : ∀ {x y s t}, v.hook x s = ((.keep, y), t) → budget t ≤ budget s ∧
    weight y ≤ weight x ∧ y.statements.length ≤ x.statements.length
  replace : ∀ {x y left s t}, v.hook x s = ((.replace y, left), t) →
    budget t ≤ budget s ∧ budget t + weight y < budget s + weight x
  remove : ∀ {x left s t}, v.hook x s = ((.remove, left), t) → budget t ≤ budget s
  inside : ∀ {x z}, z ∈ x.parts → weight z ≤ weight x

/-- The visit of a statement ends at some depth, and the budget does not grow. -/
def Ends (v : Visitor σ) (budget : σ → Nat) (x : Statement) (s : σ) : Prop :=
  ∃ depth left t, v.visitStatement depth x s = some (left, t) ∧ budget t ≤ budget s

variable {x y : Statement} {s : σ} {n : Nat}

/-- Each statement may need a depth of its own; the greatest serves all of them. -/
theorem walk_ends {statements : List Statement}
    (h : ∀ x ∈ statements, ∀ s, budget s ≤ n → Ends v budget x s) (hs : budget s ≤ n) :
    ∃ depth left t, walk (v.visitStatement depth) statements s = some (left, t) ∧
      budget t ≤ budget s := by
  induction statements generalizing s with
  | nil => exact ⟨0, [], s, rfl, Nat.le_refl _⟩
  | cons x rest ih =>
      obtain ⟨depth, left, t, hx, ht⟩ := h x List.mem_cons_self s hs
      obtain ⟨depth', others, u, hrest, hu⟩ :=
        ih (fun y hy => h y (List.mem_cons_of_mem x hy)) (Nat.le_trans ht hs)
      have hx' := visitStatement_extends v (Nat.le_max_left depth depth') hx
      have hrest' := walk_extends (visitStatement_extends v (Nat.le_max_right depth depth')) hrest
      refine ⟨max depth depth', left.toList ++ others, u, ?_, Nat.le_trans hu ht⟩
      simp [walk, hx', hrest']

namespace Dwindles

variable (hv : v.Dwindles budget weight)

include hv

theorem visitProgram_ends {p : Program}
    (h : ∀ x ∈ p.body, ∀ t, budget t ≤ n → Ends v budget x t) (hs : budget s ≤ n) :
    ∃ depth q t, v.visitProgram (v.visitStatement depth) p s = some (q, t) ∧
      budget t ≤ budget s := by
  have henter := hv.enter p s
  obtain ⟨depth, body, t, hbody, ht⟩ := walk_ends h (Nat.le_trans henter hs)
  have hexit := hv.exit { p with body := body } t
  refine ⟨depth, { p with body := body }, v.exit { p with body := body } t, ?_, ?_⟩
  · simp [visitProgram, hbody]
  · exact Nat.le_trans hexit (Nat.le_trans ht henter)

theorem visitInverse_ends {inverse : Option Program}
    (h : ∀ x ∈ inverse.elim [] Program.body, ∀ t, budget t ≤ n → Ends v budget x t)
    (hs : budget s ≤ n) :
    ∃ depth r t, v.visitInverse (v.visitStatement depth) inverse s = some (r, t) ∧
      budget t ≤ budget s := by
  cases inverse with
  | none => exact ⟨0, none, s, rfl, Nat.le_refl _⟩
  | some p =>
      obtain ⟨depth, q, t, hq, ht⟩ := hv.visitProgram_ends h hs
      refine ⟨depth, some q, t, ?_, ht⟩
      simp [visitInverse, hq]

theorem visitInside_ends
    (h : ∀ z ∈ y.parts, ∀ t, budget t ≤ budget s → Ends v budget z t) :
    ∃ depth z t, v.visitInside (v.visitStatement depth) y s = some (z, t) ∧
      budget t ≤ budget s := by
  cases y with
  | element e =>
      obtain ⟨depth, children, t, hchildren, ht⟩ := walk_ends h (Nat.le_refl _)
      rw [Statement.parts_element] at hchildren
      refine ⟨depth, .element { e with children := children }, t, ?_, ht⟩
      simp [visitInside, hchildren]
  | block b =>
      obtain ⟨depth, q, t, hq, ht⟩ := hv.visitProgram_ends
        (fun z hz => h z (List.mem_append_left _ hz)) (Nat.le_refl _)
      obtain ⟨depth', r, u, hr, hu⟩ := hv.visitInverse_ends
        (fun z hz => h z (List.mem_append_right _ hz)) ht
      have hq' := visitProgram_extends (visitStatement_extends v (Nat.le_max_left depth depth')) hq
      have hr' := visitInverse_extends (visitStatement_extends v (Nat.le_max_right depth depth')) hr
      refine ⟨max depth depth', .block { b with program := q, inverse := r }, u, ?_,
        Nat.le_trans hu ht⟩
      simp [visitInside, hq', hr']
  | mustache | text | comment | mustacheComment => exact ⟨0, _, s, rfl, Nat.le_refl _⟩

theorem ends_of_le (n m : Nat) {x : Statement} {s : σ} (hn : budget s + weight x ≤ n)
    (hm : x.statements.length ≤ m) : Ends v budget x s := by
  -- A replacement leaves less of `n` and may have any size; what is inside has a smaller size.
  induction n using Nat.strongRecOn generalizing m x s with
  | ind n ihn =>
  induction m generalizing x s with
  | zero =>
      rw [x.statements_eq] at hm
      cases hm
  | succ m ihm =>
      match hhook : v.hook x s with
      | ((.keep, y), t) =>
          obtain ⟨hbudget, hweight, hsize⟩ := hv.keep hhook
          obtain ⟨depth, z, u, hinside, hu⟩ := hv.visitInside_ends (y := y) (s := t) <| by
            intro z hz u hu
            have hpart := hv.inside hz
            have hlt := Statement.length_lt_of_mem_parts hz
            exact ihm (by omega) (by omega)
          refine ⟨depth + 1, some z, u, ?_, Nat.le_trans hu hbudget⟩
          rw [visitStatement_of_keep hhook, hinside]
          rfl
      | ((.replace y, left), t) =>
          obtain ⟨hbudget, hless⟩ := hv.replace hhook
          obtain ⟨depth, z, u, hy, hu⟩ :=
            ihn _ (Nat.lt_of_lt_of_le hless hn) _ (Nat.le_refl _) (Nat.le_refl _)
          refine ⟨depth + 1, z, u, ?_, Nat.le_trans hu hbudget⟩
          rw [visitStatement_of_replace hhook, hy]
      | ((.remove, left), t) =>
          exact ⟨1, none, t, visitStatement_of_remove hhook, hv.remove hhook⟩

/-- A run of a visitor that dwindles ends, and with one and the same result from some depth
on. -/
theorem traverse_ends (p : Program) (s : σ) :
    ∃ depth r, ∀ more, v.traverse (depth + more) p s = some r := by
  obtain ⟨depth, q, t, hq, -⟩ := hv.visitProgram_ends (p := p)
    (fun x _ t _ => hv.ends_of_le _ _ (Nat.le_refl _) (Nat.le_refl _)) (Nat.le_refl (budget s))
  exact ⟨depth, (q, t), fun more => traverse_mono (Nat.le_add_right depth more) hq⟩

end Dwindles

/-- A visitor that never adds statements to what it keeps and has a budget in its state that
each replacement cuts down and nothing raises. -/
structure Frugal (v : Visitor σ) (budget : σ → Nat) : Prop where
  enter : ∀ p s, budget (v.enter p s) ≤ budget s
  exit : ∀ p s, budget (v.exit p s) ≤ budget s
  keep : ∀ {x y s t}, v.hook x s = ((.keep, y), t) →
    budget t ≤ budget s ∧ y.statements.length ≤ x.statements.length
  replace : ∀ {x y left s t}, v.hook x s = ((.replace y, left), t) → budget t < budget s
  remove : ∀ {x left s t}, v.hook x s = ((.remove, left), t) → budget t ≤ budget s

theorem Frugal.dwindles (h : v.Frugal budget) : v.Dwindles budget fun _ => 0 where
  enter := h.enter
  exit := h.exit
  keep hhook := ⟨(h.keep hhook).1, Nat.le_refl _, (h.keep hhook).2⟩
  replace hhook := ⟨Nat.le_of_lt (h.replace hhook), h.replace hhook⟩
  remove := h.remove
  inside _ := Nat.le_refl _

end Visitor

end CurlyTemplate
