import CurlyTemplate.Proofs.Decode.Edits
import CurlyTemplate.Proofs.Decode.Records

/-!
# Decoders that respect edits

Two results agree when both are complaints, or when both are something that looks the same in
a view. Steps that may be exchanged lead to results that agree, whatever their order
(`agree_foldlM_of_perm`). A decoder respects the edits of a shape when its results for a
reading and for the edited one agree.
-/

namespace CurlyTemplate

namespace Decode

open Json (Fault Reading ReadMember Value)

variable {α β γ δ σ K : Type}

/-- Both are complaints, or both are something that looks the same. -/
inductive Agree (view : α → β) : Except Error α → Except Error α → Prop where
  | error (e e' : Error) : Agree view (.error e) (.error e')
  | ok {a b : α} (h : view a = view b) : Agree view (.ok a) (.ok b)

namespace Agree

variable {view : α → β} {x y z : Except Error α}

theorem refl (view : α → β) (x : Except Error α) : Agree view x x := by
  cases x with
  | error e => exact .error e e
  | ok a => exact .ok rfl

theorem symm (h : Agree view x y) : Agree view y x := by
  cases h with
  | error e e' => exact .error e' e
  | ok h => exact .ok h.symm

theorem trans (h : Agree view x y) (h' : Agree view y z) : Agree view x z := by
  cases h with
  | error e => cases h' with | error _ e' => exact .error e e'
  | ok h => cases h' with | ok h' => exact .ok (h.trans h')

theorem of_id (h : Agree id x y) (view : α → β) : Agree view x y := by
  cases h with
  | error e e' => exact .error e e'
  | ok h => exact .ok (congrArg view h)

theorem bind {view' : γ → δ} {f g : α → Except Error γ} (h : Agree view x y)
    (hf : ∀ a b, view a = view b → Agree view' (f a) (g b)) :
    Agree view' (x >>= f) (y >>= g) := by
  cases h with
  | error e e' => exact .error e e'
  | ok h => exact hf _ _ h

theorem map {view' : γ → δ} {f g : α → γ} (h : Agree view x y)
    (hf : ∀ a b, view a = view b → view' (f a) = view' (g b)) :
    Agree view' (x.map f) (y.map g) := by
  cases h with
  | error e e' => exact .error e e'
  | ok h => exact .ok (hf _ _ h)

/-- Results that agree are both something or both nothing. -/
theorem exists_ok_iff (h : Agree view x y) : (∃ a, x = .ok a) ↔ ∃ b, y = .ok b := by
  cases h with
  | error => simp
  | ok => simp

theorem view_eq {a b : α} (h : Agree view (.ok a) (.ok b)) : view a = view b := by
  cases h with
  | ok h => exact h

end Agree

theorem agree_sound {f f' : Option Fault} (h : f = none ↔ f' = none) :
    Agree id (sound f) (sound f') := by
  cases f with
  | none =>
      rw [h.mp rfl]
      exact .refl id _
  | some fault =>
      cases f' with
      | none => exact nomatch h.mpr rfl
      | some fault' => exact .error _ _

theorem agree_mapM {view : α → β} {f : γ → Except Error α} {xs ys : List γ}
    (h : List.Forall₂ (fun x y => Agree view (f x) (f y)) xs ys) :
    Agree (List.map view) (xs.mapM f) (ys.mapM f) := by
  induction h with
  | nil => exact .ok rfl
  | cons hx _ ih =>
      rw [List.mapM_cons, List.mapM_cons]
      refine hx.bind fun a b hab => ih.bind fun as bs hs => .ok ?_
      rw [List.map_cons, List.map_cons, hab, hs]

/-- Lists that differ in one place. -/
theorem forall₂_of_item {R : γ → γ → Prop} (hrefl : ∀ x, R x x) {x y : γ} (h : R x y)
    (before after : List γ) : List.Forall₂ R (before ++ x :: after) (before ++ y :: after) :=
  List.rel_append (List.forall₂_same.mpr fun x _ => hrefl x)
    (.cons h (List.forall₂_same.mpr fun x _ => hrefl x))

section Steps

variable {view : σ → β} {key : γ → String} {step : σ → γ → Except Error σ}

theorem agree_foldlM (hcongr : ∀ m s t, view s = view t → Agree view (step s m) (step t m))
    (ms : List γ) {s t : σ} (hst : view s = view t) :
    Agree view (ms.foldlM step s) (ms.foldlM step t) := by
  induction ms generalizing s t with
  | nil => exact .ok hst
  | cons m ms ih =>
      rw [List.foldlM_cons, List.foldlM_cons]
      exact (hcongr m s t hst).bind fun a b hab => ih hab

/-- Steps that may be exchanged lead to results that agree, in whatever order they are taken.
Steps under one key need not be exchanged. -/
theorem agree_foldlM_of_perm
    (hcongr : ∀ m s t, view s = view t → Agree view (step s m) (step t m))
    (hcomm : ∀ m m' s, key m ≠ key m' →
      Agree view (step s m >>= fun t => step t m') (step s m' >>= fun t => step t m))
    {ms ms' : List γ} (h : ms.Perm ms') (hkeys : (ms.map key).Nodup) {s t : σ}
    (hst : view s = view t) : Agree view (ms.foldlM step s) (ms'.foldlM step t) := by
  induction h generalizing s t with
  | nil => exact .ok hst
  | cons m _ ih =>
      rw [List.map_cons, List.nodup_cons] at hkeys
      rw [List.foldlM_cons, List.foldlM_cons]
      exact (hcongr m s t hst).bind fun a b hab => ih hkeys.2 hab
  | swap m m' ms =>
      have hne : key m' ≠ key m := fun heq => by simp [heq] at hkeys
      refine (agree_foldlM hcongr _ hst).trans ?_
      simp only [List.foldlM_cons, ← bind_assoc]
      exact (hcomm m' m t hne).bind fun a b hab => agree_foldlM hcongr ms hab
  | trans h _ ih ih' =>
      exact (ih hkeys hst).trans (ih' ((h.map key).nodup_iff.mp hkeys) rfl)

end Steps

section Lists

variable {R : α → β → Prop} {xs : List α} {ys : List β}

theorem exists_left_of_forall₂ (h : List.Forall₂ R xs ys) {y : β} (hy : y ∈ ys) :
    ∃ x ∈ xs, R x y := by
  induction h with
  | nil => cases hy
  | cons hxy _ ih =>
      rcases List.mem_cons.mp hy with rfl | hy
      · exact ⟨_, List.mem_cons_self, hxy⟩
      · obtain ⟨x, hx, h⟩ := ih hy
        exact ⟨x, List.mem_cons_of_mem _ hx, h⟩

theorem exists_right_of_forall₂ (h : List.Forall₂ R xs ys) {x : α} (hx : x ∈ xs) :
    ∃ y ∈ ys, R x y := by
  induction h with
  | nil => cases hx
  | cons hxy _ ih =>
      rcases List.mem_cons.mp hx with rfl | hx
      · exact ⟨_, List.mem_cons_self, hxy⟩
      · obtain ⟨y, hy, h⟩ := ih hx
        exact ⟨y, List.mem_cons_of_mem _ hy, h⟩

end Lists

/-! ### Decoders -/

/-- A decoder yields results that agree for a reading and for the edited one. -/
def Respects (G : Grammar K) (shape : Shape K) (decode : Decoder α) (view : α → β) : Prop :=
  ∀ manner r r', Edited G shape r r' → Agree view (decode manner r) (decode manner r')

section Decoders

variable {G : Grammar K} {shape : Shape K}

/-- What is neither decoded from an array nor from an object is not edited. -/
theorem respects_of_fails {decode : Decoder α}
    (harray : ∀ manner items fault, ∃ e, decode manner (.array items fault) = .error e)
    (hobject : ∀ manner members fault, ∃ e, decode manner (.object members fault) = .error e) :
    Respects G shape decode id := by
  rintro manner r r' ⟨-, -, h⟩
  obtain ⟨items, fault, items', fault', rfl, rfl⟩ | ⟨members, fault, members', fault', rfl, rfl⟩ :=
    h.structured
  · obtain ⟨e, he⟩ := harray manner items fault
    obtain ⟨e', he'⟩ := harray manner items' fault'
    rw [he, he']
    exact .error e e'
  · obtain ⟨e, he⟩ := hobject manner members fault
    obtain ⟨e', he'⟩ := hobject manner members' fault'
    rw [he, he']
    exact .error e e'

theorem respects_string : Respects G shape string id :=
  respects_of_fails (fun _ _ _ => ⟨_, rfl⟩) (fun _ _ _ => ⟨_, rfl⟩)

theorem respects_boolean : Respects G shape boolean id :=
  respects_of_fails (fun _ _ _ => ⟨_, rfl⟩) (fun _ _ _ => ⟨_, rfl⟩)

theorem respects_natural : Respects G shape natural id :=
  respects_of_fails (fun _ _ _ => ⟨_, rfl⟩) (fun _ _ _ => ⟨_, rfl⟩)

theorem respects_double : Respects G shape double id :=
  respects_of_fails (fun _ _ _ => ⟨_, rfl⟩) (fun _ _ _ => ⟨_, rfl⟩)

theorem Respects.optional {item : Decoder α} {view : α → β} (h : Respects G shape item view) :
    Respects G shape (optional item) (Option.map view) := by
  intro manner r r' hedit
  have hitem : Agree (Option.map view) ((item manner r).map some) ((item manner r').map some) :=
    (h manner r r' hedit).map fun a b hab => congrArg some hab
  obtain ⟨_, _, _, _, rfl, rfl⟩ | ⟨_, _, _, _, rfl, rfl⟩ := hedit.2.2.structured
  · exact hitem
  · exact hitem

/-- An edited list is edited in one item. -/
theorem Edited.of_list {items : List Reading} {fault : Option Fault} {r' : Reading}
    (h : Edited G (.list shape) (.array items fault) r') :
    ∃ before after s s', Edited G shape s s' ∧ items = before ++ s :: after ∧
      r' = .array (before ++ s' :: after) fault := by
  obtain ⟨hr, hr', h⟩ := h
  rw [Reading.keysDistinct_array] at hr
  cases h with
  | rearrange h =>
      cases h with
      | @item before after s s' _ h =>
          rw [Reading.keysDistinct_array] at hr'
          exact ⟨before, after, s, s', ⟨hr s (by simp), hr' s' (by simp), .rearrange h⟩, rfl, rfl⟩
  | @item _ before after s s' _ h =>
      rw [Reading.keysDistinct_array] at hr'
      exact ⟨before, after, s, s', ⟨hr s (by simp), hr' s' (by simp), h⟩, rfl, rfl⟩

theorem Respects.list {item : Decoder α} {view : α → β} (h : Respects G shape item view) :
    Respects G (.list shape) (list item) (List.map view) := by
  intro manner r r' hedit
  obtain ⟨items, fault, _, _, rfl, rfl⟩ | ⟨_, _, _, _, rfl, rfl⟩ := hedit.2.2.structured
  · obtain ⟨before, after, s, s', hitem, rfl, heq⟩ := hedit.of_list
    cases heq
    have hitems := forall₂_of_item (R := fun r r' => Agree view (item manner r) (item manner r'))
      (fun r => .refl view (item manner r)) (h manner s s' hitem) before after
    exact (agree_mapM hitems).bind fun a b hab =>
      (Agree.refl id (sound fault)).bind fun _ _ _ => .ok hab
  · exact .error _ _

theorem Respects.list_id {item : Decoder α} (h : Respects G shape item id) :
    Respects G (.list shape) (Decode.list item) id := by
  have hlist := h.list
  rwa [List.map_id_fun] at hlist

theorem Respects.optional_id {item : Decoder α} (h : Respects G shape item id) :
    Respects G shape (Decode.optional item) id := by
  have hoptional := h.optional
  rwa [Option.map_id] at hoptional

theorem respects_strings : Respects G (.list shape) (Decode.list string) id :=
  respects_string.list_id

end Decoders

end Decode

end CurlyTemplate
