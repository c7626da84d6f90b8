import CurlyTemplate.Proofs.Decode.EditedRecords
import CurlyTemplate.Proofs.Decode.Yields

/-!
# Edited unions

A union looks for the tag and for faults, member by member, and two members may be exchanged
in that, too. What is left without the tag is decoded as the variant does, so a union respects
edits when its variants do (`respects_union`).
-/

namespace CurlyTemplate

namespace Decode

open Json (Fault Reading ReadMember)

variable {α β K : Type}

/-! ### The tag -/

/-- Looks at one member for the tag, or for a fault. -/
def tagStep (variants : List (Variant α)) (manner : Manner) (tag : Option (Variant α))
    (m : ReadMember) : Except Error (Option (Variant α)) :=
  if m.key == tagKey then
    match tag with
    | some _ => .error (.duplicateField tagKey)
    | none => (readTag variants manner m.value).map some
  else (sound m.value.firstFault).map fun _ => tag

section Tags

variable {variants : List (Variant α)} {manner : Manner}

theorem findTag_eq_foldlM (tag : Option (Variant α)) (members : List ReadMember) :
    findTag variants manner tag members = members.foldlM (tagStep variants manner) tag := by
  induction members generalizing tag with
  | nil => cases tag <;> rfl
  | cons m rest ih =>
      rw [List.foldlM_cons, findTag.eq_def, tagStep.eq_def]
      simp only
      split
      · cases tag with
        | some v => rfl
        | none =>
            cases readTag variants manner m.value with
            | error e => rfl
            | ok v => exact ih (some v)
      · cases sound m.value.firstFault with
        | error e => rfl
        | ok u => exact ih tag

theorem tagStep_tag {m : ReadMember} (h : m.key = tagKey) (tag : Option (Variant α)) :
    tagStep variants manner tag m =
      tag.elim ((readTag variants manner m.value).map some)
        fun _ => .error (.duplicateField tagKey) := by
  rw [tagStep.eq_def, if_pos (beq_iff_eq.mpr h)]
  cases tag <;> rfl

theorem tagStep_other {m : ReadMember} (h : m.key ≠ tagKey) (tag : Option (Variant α)) :
    tagStep variants manner tag m = (sound m.value.firstFault).map fun _ => tag :=
  if_neg (by simpa using h)

theorem agree_tagStep (m : ReadMember) (tag tag' : Option (Variant α)) (h : id tag = id tag') :
    Agree id (tagStep variants manner tag m) (tagStep variants manner tag' m) := by
  cases h
  exact .refl id _

theorem comm_tagStep_other {m m' : ReadMember} (hm : m.key ≠ tagKey) (tag : Option (Variant α)) :
    Agree id (tagStep variants manner tag m >>= fun t => tagStep variants manner t m')
      (tagStep variants manner tag m' >>= fun t => tagStep variants manner t m) := by
  simp only [tagStep_other hm]
  cases m.value.firstFault with
  | none =>
      simp only [sound, Except.map, ok_bind]
      cases tagStep variants manner tag m' with
      | error e => exact .error e e
      | ok t => exact .ok rfl
  | some fault =>
      cases tagStep variants manner tag m' with
      | error e => exact .error _ _
      | ok t => exact .error _ _

theorem comm_tagStep (m m' : ReadMember) (tag : Option (Variant α)) (hne : m.key ≠ m'.key) :
    Agree id (tagStep variants manner tag m >>= fun t => tagStep variants manner t m')
      (tagStep variants manner tag m' >>= fun t => tagStep variants manner t m) := by
  by_cases hm : m.key = tagKey
  · exact (comm_tagStep_other (fun hm' => hne (hm.trans hm'.symm)) tag).symm
  · exact comm_tagStep_other hm tag

/-- Members without a tag are looked through for faults alone. -/
theorem findTag_of_untagged {members : List ReadMember} (h : ∀ m ∈ members, m.key ≠ tagKey)
    (tag : Option (Variant α)) :
    findTag variants manner tag members =
      (sound (Reading.faultOfMembers members)).map fun _ => tag := by
  rw [findTag_eq_foldlM]
  induction members with
  | nil => rfl
  | cons m rest ih =>
      obtain ⟨key, r, skipFault⟩ := m
      rw [List.forall_mem_cons] at h
      rw [List.foldlM_cons, tagStep_other h.1, Reading.faultOfMembers]
      cases r.firstFault with
      | none => exact ih h.2
      | some fault => rfl

/-- Neither an array nor an object names a variant. -/
theorem exists_readTag_error (variants : List (Variant α)) (manner : Manner) {r r' : Reading}
    (h : r.Rearranged r') :
    (∃ e, readTag variants manner r = .error e) ∧ ∃ e, readTag variants manner r' = .error e := by
  cases h <;> cases manner <;> exact ⟨⟨_, rfl⟩, ⟨_, rfl⟩⟩

end Tags

/-! ### Variants -/

/-- The variants are those of the kinds, in their order, and respect edits. -/
def Covers (G : Grammar K) (kinds : List K) (variants : List (Variant α)) (view : α → β) : Prop :=
  List.Forall₂ (fun kind (variant : Variant α) =>
    variant.name = G.name kind ∧ Respects G (.node kind) variant.decode view) kinds variants

section Unions

variable {G : Grammar K} {kinds : List K} {variants : List (Variant α)} {view : α → β}
  {manner : Manner}

theorem Covers.exists_kind (h : Covers G kinds variants view) {variant : Variant α}
    (hmem : variant ∈ variants) : ∃ kind, Respects G (.node kind) variant.decode view := by
  obtain ⟨kind, -, -, hrespects⟩ := exists_left_of_forall₂ h hmem
  exact ⟨kind, hrespects⟩

/-- The variant that a tag names respects the edits of its kind. -/
theorem Covers.respects_of_readTag (h : Covers G kinds variants view)
    (hnames : (kinds.map G.name).Nodup) {index : Nat} {kind : K} (hkind : kinds[index]? = some kind)
    {tag : Reading} (htag : tag = .string (G.name kind) ∨ tag = .number (.int index))
    {variant : Variant α} (hread : readTag variants manner tag = .ok variant) :
    Respects G (.node kind) variant.decode view := by
  rcases htag with rfl | rfl
  · rw [readTag] at hread
    split at hread
    next found hfind =>
      cases hread
      have hname : variant.name = G.name kind := by simpa using List.find?_some hfind
      obtain ⟨kind', hkind', hname', hrespects⟩ :=
        exists_left_of_forall₂ h (List.mem_of_find?_eq_some hfind)
      have hsame : kind' = kind := List.inj_on_of_nodup_map hnames hkind'
        (List.mem_of_getElem? hkind) (hname'.symm.trans hname)
      exact hsame ▸ hrespects
    next => cases hread
  · cases manner with
    | streamed => cases hread
    | held =>
        rw [readTag, if_pos (Int.natCast_nonneg index), Int.toNat_natCast] at hread
        split at hread
        next found hget =>
          cases hread
          obtain ⟨hindex, rfl⟩ := List.getElem?_eq_some_iff.mp hkind
          obtain ⟨hindex', rfl⟩ := List.getElem?_eq_some_iff.mp hget
          exact ((List.forall₂_iff_get.mp h).2 index hindex hindex').2
        next => cases hread

/-! ### Edited unions -/

/-- The members of an object other than its tag. -/
def untagged (members : List ReadMember) : List ReadMember := members.filter (·.key != tagKey)

theorem keysDistinct_untagged {members : List ReadMember} {fault : Option Fault}
    (h : (Reading.object members fault).KeysDistinct) :
    (Reading.object (untagged members) none).KeysDistinct := by
  rw [Reading.keysDistinct_object] at h ⊢
  refine ⟨h.1.sublist (List.filter_sublist.map _), fun m hm => h.2 m (List.mem_filter.mp hm).1⟩

theorem untagged_cons_tag (tag : Reading) (skipFault : Option Fault) (members : List ReadMember) :
    untagged (⟨tagKey, tag, skipFault⟩ :: members) = untagged members :=
  List.filter_cons_of_neg (by simp)

theorem untagged_cons_other {m : ReadMember} (h : m.key ≠ tagKey) (members : List ReadMember) :
    untagged (m :: members) = m :: untagged members :=
  List.filter_cons_of_pos (by simpa using h)

theorem untagged_of_untagged {members : List ReadMember} (h : ∀ m ∈ members, m.key ≠ tagKey) :
    untagged members = members :=
  List.filter_eq_self.mpr fun m hm => by simpa using h m hm

/-- Two objects are decoded alike if they have the same tag and the variant takes what is left
of them alike. -/
theorem agree_union {name : String} {members members' : List ReadMember} {fault : Option Fault}
    (htag : fault = none →
      Agree id (findTag variants manner none members) (findTag variants manner none members'))
    (hdecode : ∀ variant, fault = none → findTag variants manner none members = .ok (some variant) →
      Agree view (variant.decode .held (.object (untagged members) none))
        (variant.decode .held (.object (untagged members') none))) :
    Agree view (union name variants manner (.object members fault))
      (union name variants manner (.object members' fault)) := by
  rw [union, union]
  cases fault with
  | some fault =>
      cases findTag variants manner none members <;>
        cases findTag variants manner none members' <;> exact .error _ _
  | none =>
      have htag := htag rfl
      have hdecode := fun variant => hdecode variant rfl
      generalize findTag variants manner none members = x at htag hdecode ⊢
      generalize findTag variants manner none members' = y at htag ⊢
      cases htag with
      | error e e' => exact .error e e'
      | @ok tag tag' h =>
          cases h
          cases tag with
          | none => exact .error _ _
          | some variant => exact hdecode variant rfl

theorem mem_of_findTag_none {members : List ReadMember} {variant : Variant α}
    (h : findTag variants manner none members = .ok (some variant)) : variant ∈ variants := by
  have hnone : ∀ v, none = some v → v ∈ variants := nofun
  exact mem_of_findTag hnone h

theorem Covers.agree_of_perm (h : Covers G kinds variants view) {name : String}
    {members members' : List ReadMember} {fault : Option Fault} (hperm : members.Perm members')
    (hr : (Reading.object members fault).KeysDistinct)
    (hr' : (Reading.object members' fault).KeysDistinct) :
    Agree view (union name variants manner (.object members fault))
      (union name variants manner (.object members' fault)) := by
  refine agree_union (fun _ => ?_) fun variant _ hfound => ?_
  · rw [findTag_eq_foldlM, findTag_eq_foldlM]
    exact agree_foldlM_of_perm agree_tagStep comm_tagStep hperm
      (Reading.keysDistinct_object.mp hr).1 rfl
  · obtain ⟨kind, hrespects⟩ := h.exists_kind (mem_of_findTag_none hfound)
    exact hrespects .held _ _ ⟨keysDistinct_untagged hr, keysDistinct_untagged hr',
      .rearrange (.members (hperm.filter _))⟩

/-- Something inside a member is put into another order: if that is the tag, both are no tags. -/
theorem Covers.agree_of_member (h : Covers G kinds variants view) {name key : String}
    {r r' : Reading} {skipFault : Option Fault} {rest : List ReadMember} {fault : Option Fault}
    (hedit : r.Rearranged r')
    (hr : (Reading.object (⟨key, r, skipFault⟩ :: rest) fault).KeysDistinct)
    (hr' : (Reading.object (⟨key, r', skipFault⟩ :: rest) fault).KeysDistinct) :
    Agree view (union name variants manner (.object (⟨key, r, skipFault⟩ :: rest) fault))
      (union name variants manner (.object (⟨key, r', skipFault⟩ :: rest) fault)) := by
  by_cases hkey : key = tagKey
  · subst hkey
    obtain ⟨⟨e, he⟩, e', he'⟩ := exists_readTag_error variants manner hedit
    have hfails {r : Reading} {e : Error} (he : readTag variants manner r = .error e) :
        findTag variants manner none (⟨tagKey, r, skipFault⟩ :: rest) = .error e := by
      rw [findTag_eq_foldlM, List.foldlM_cons, tagStep_tag rfl, Option.elim_none, he]
      rfl
    rw [union, union, hfails he, hfails he']
    exact .error e e'
  · refine agree_union (fun _ => ?_) fun variant _ hfound => ?_
    · rw [findTag_eq_foldlM, findTag_eq_foldlM, List.foldlM_cons, List.foldlM_cons,
        tagStep_other hkey, tagStep_other hkey]
      exact ((agree_sound hedit.firstFault_iff).map fun _ _ _ => rfl).bind fun a b hab =>
        agree_foldlM agree_tagStep rest hab
    · obtain ⟨kind, hrespects⟩ := h.exists_kind (mem_of_findTag_none hfound)
      have hleft := keysDistinct_untagged hr
      have hleft' := keysDistinct_untagged hr'
      rw [untagged_cons_other hkey] at hleft hleft' ⊢
      rw [untagged_cons_other hkey]
      exact hrespects .held _ _ ⟨hleft, hleft', .rearrange (.member hedit)⟩

theorem Covers.agree_of_item (h : Covers G kinds variants view) {name : String}
    {before after : List Reading} {r r' : Reading} {fault : Option Fault} (hedit : r.Rearranged r')
    (hr : (Reading.array (before ++ r :: after) fault).KeysDistinct)
    (hr' : (Reading.array (before ++ r' :: after) fault).KeysDistinct) :
    Agree view (union name variants manner (.array (before ++ r :: after) fault))
      (union name variants manner (.array (before ++ r' :: after) fault)) := by
  cases before with
  | nil =>
      obtain ⟨⟨e, he⟩, e', he'⟩ := exists_readTag_error variants manner hedit
      rw [List.nil_append, List.nil_append, union, union, he, he']
      exact .error e e'
  | cons first before =>
      rw [List.cons_append, Reading.keysDistinct_array, List.forall_mem_cons] at hr hr'
      rw [List.cons_append, List.cons_append, union, union]
      cases hfirst : readTag variants manner first with
      | error e => exact .error e e
      | ok variant =>
          obtain ⟨kind, hrespects⟩ := h.exists_kind (mem_of_readTag hfirst)
          have hfault : Reading.faultOfItems (before ++ r :: after) = none ↔
              Reading.faultOfItems (before ++ r' :: after) = none := by
            simp only [Reading.faultOfItems_eq_none_iff, List.forall_mem_append,
              List.forall_mem_cons, hedit.firstFault_iff]
          exact (agree_sound hfault).bind fun _ _ _ =>
            (Agree.refl id (sound fault)).bind fun _ _ _ => hrespects .held _ _
              ⟨Reading.keysDistinct_array.mpr hr.2, Reading.keysDistinct_array.mpr hr'.2,
                .rearrange (.item hedit)⟩

/-- A node with its tag in front is edited as a node of the kind that it names. -/
theorem Covers.agree_of_variant (h : Covers G kinds variants view)
    (hnames : (kinds.map G.name).Nodup) {name : String} {index : Nat} {kind : K}
    (hkind : kinds[index]? = some kind) {tag : Reading} {skipFault : Option Fault}
    (htag : tag = .string (G.name kind) ∨ tag = .number (.int index))
    {members members' : List ReadMember} {fault : Option Fault}
    (hedit : Edit G (.node kind) (.object members fault) (.object members' fault))
    (hr : (Reading.object (⟨tagKey, tag, skipFault⟩ :: members) fault).KeysDistinct)
    (hr' : (Reading.object (⟨tagKey, tag, skipFault⟩ :: members') fault).KeysDistinct) :
    Agree view (union name variants manner (.object (⟨tagKey, tag, skipFault⟩ :: members) fault))
      (union name variants manner (.object (⟨tagKey, tag, skipFault⟩ :: members') fault)) := by
  have hother {ms : List ReadMember}
      (hr : (Reading.object (⟨tagKey, tag, skipFault⟩ :: ms) fault).KeysDistinct) :
      ∀ m ∈ ms, m.key ≠ tagKey := by
    intro m hm hkey
    have hkeys := (Reading.keysDistinct_object.mp hr).1
    rw [List.map_cons, List.nodup_cons] at hkeys
    exact hkeys.1 (List.mem_map.mpr ⟨m, hm, hkey⟩)
  have hfind {ms : List ReadMember} (hms : ∀ m ∈ ms, m.key ≠ tagKey) :
      findTag variants manner none (⟨tagKey, tag, skipFault⟩ :: ms) =
        readTag variants manner tag >>= fun variant =>
          (sound (Reading.faultOfMembers ms)).map fun _ => some variant := by
    rw [findTag_eq_foldlM, List.foldlM_cons, tagStep_tag rfl, Option.elim_none]
    cases readTag variants manner tag with
    | error e => rfl
    | ok variant =>
        rw [ok_bind, ← findTag_of_untagged hms, findTag_eq_foldlM]
        rfl
  have hms := hother hr
  have hms' := hother hr'
  refine agree_union (fun hfault => ?_) fun variant hfault hfound => ?_
  · subst hfault
    have hiff := hedit.firstFault_iff
    rw [Reading.firstFault, Reading.firstFault, Option.or_none, Option.or_none] at hiff
    rw [hfind hms, hfind hms']
    exact (Agree.refl id _).bind fun a b hab =>
      (agree_sound hiff).map fun _ _ _ => congrArg some hab
  · subst hfault
    rw [hfind hms, bind_eq_ok_iff] at hfound
    obtain ⟨found, hread, hfound⟩ := hfound
    obtain ⟨-, -, hfound⟩ := map_eq_ok_iff.mp hfound
    cases hfound
    have hleft := keysDistinct_untagged hr
    have hleft' := keysDistinct_untagged hr'
    rw [untagged_cons_tag, untagged_of_untagged hms] at hleft ⊢
    rw [untagged_cons_tag, untagged_of_untagged hms'] at hleft' ⊢
    exact h.respects_of_readTag hnames hkind htag hread .held _ _ ⟨hleft, hleft', hedit⟩

/-- A union respects edits if its variants do. -/
theorem respects_union (hnames : (kinds.map G.name).Nodup) (h : Covers G kinds variants view)
    (name : String) : Respects G (.variant kinds) (union name variants) view := by
  rintro manner r r' ⟨hr, hr', hedit⟩
  cases hedit with
  | rearrange hedit =>
      cases hedit with
      | item hedit => exact h.agree_of_item hedit hr hr'
      | members hperm => exact h.agree_of_perm hperm hr hr'
      | member hedit => exact h.agree_of_member hedit hr hr'
  | variant hkind htag hedit => exact h.agree_of_variant hnames hkind htag hedit hr hr'

end Unions

end Decode

end CurlyTemplate
