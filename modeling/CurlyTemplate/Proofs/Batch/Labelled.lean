/-!
# Steps on a list, each beside its result

Some steps are done for the members of a list, in order, and their results are kept each
behind its member. Whatever the steps are, the members are those of the list.
-/

namespace CurlyTemplate

namespace Batch

variable {α β : Type}

/-- What the members of a list come to, each behind its member. -/
abbrev Labelled (β : Type) (members : List α) :=
  {pairs : List (α × β) // pairs.map Prod.fst = members}

/-- Adds a member with what it comes to in front. -/
def Labelled.cons {members : List α} (x : α) (y : β) (pairs : Labelled β members) :
    Labelled β (x :: members) :=
  ⟨(x, y) :: pairs.1, by rw [List.map_cons, pairs.2]⟩

variable {m : Type → Type} [Monad m]

/-- Does a step for each member of a list, in order. -/
def labelAll (step : α → m β) : (members : List α) → m (Labelled β members)
  | [] => pure ⟨[], rfl⟩
  | x :: rest => do
      let y ← step x
      let pairs ← labelAll step rest
      pure (pairs.cons x y)

theorem mapM_label [LawfulMonad m] (step : α → m β) (members : List α) :
    (members.mapM fun x => do
        let y ← step x
        pure (x, y)) =
      Subtype.val <$> labelAll step members := by
  induction members with
  | nil => rw [List.mapM_nil, labelAll, map_pure]
  | cons x rest ih =>
      simp only [List.mapM_cons, ih, labelAll, Labelled.cons, bind_assoc, pure_bind,
        map_eq_pure_bind]

end Batch

end CurlyTemplate
