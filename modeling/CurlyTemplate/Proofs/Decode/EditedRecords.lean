import Mathlib.Data.List.Pairwise
import CurlyTemplate.Proofs.Decode.Agreement

/-!
# Edited records

A schema `Presents` a kind of node when its fields are those of the grammar, each decoded as
the grammar has it, and when fields and other members enter the record in any order. Such a
record respects edits (`Schema.Presents.respects`): with each key given once, the members are
taken one after the other, and two of them may be exchanged.
-/

namespace CurlyTemplate

namespace Decode

open Json (Fault Reading ReadMember Value)

variable {α β σ K : Type}

/-! ### Fields -/

/-- Two fields may be read in either order. -/
def FieldDecoder.Independent (d d' : FieldDecoder σ) : Prop :=
  ∀ manner r r' s, Agree id (d.read manner r s >>= d'.read manner r')
    (d'.read manner r' s >>= d.read manner r)

theorem FieldDecoder.Independent.symm {d d' : FieldDecoder σ} (h : d.Independent d') :
    d'.Independent d :=
  fun manner r r' s => (h manner r' r s).symm

/-- Fields are independent if their values enter the record in either order. -/
theorem independent_of_set {decode : Decoder α} {decode' : Decoder β} {set : α → σ → σ}
    {set' : β → σ → σ} (h : ∀ a b s, set' b (set a s) = set a (set' b s)) {name name' : String}
    {required required' : Bool} :
    FieldDecoder.Independent
      ⟨name, required, fun manner r s => (decode manner r).map fun a => set a s⟩
      ⟨name', required', fun manner r s => (decode' manner r).map fun b => set' b s⟩ := by
  intro manner r r' s
  simp only
  cases decode manner r with
  | error e =>
      cases decode' manner r' with
      | error e' => exact .error _ _
      | ok b => exact .error _ _
  | ok a =>
      cases decode' manner r' with
      | error e => exact .error _ _
      | ok b => exact .ok (h a b s)

instance : Std.Symm (@FieldDecoder.Independent σ) := ⟨fun _ _ h => h.symm⟩

/-- A field is decoded as the grammar has it, in every record that looks the same. -/
structure Fits (G : Grammar K) (view : σ → σ) (blank : σ) (field : FieldForm K)
    (d : FieldDecoder σ) : Prop where
  name : d.name = field.name
  optional : field.default ≠ none → d.required = false
  default : ∀ value, field.default = some value →
    ∀ manner, d.read manner (.ofValue value) blank = .ok blank
  congr : ∀ manner r s t, view s = view t → Agree view (d.read manner r s) (d.read manner r t)
  respects : ∀ manner r r' s, Edited G field.shape r r' →
    Agree view (d.read manner r s) (d.read manner r' s)

section Fields

variable {G : Grammar K} {view : σ → σ} {blank : σ} {shape : Shape K} {decode : Decoder α}
  {seen : α → α} {set : α → σ → σ}

/-- The view of a record has the view of the field. -/
theorem agree_set (hset : ∀ a s, view (set a s) = set (seen a) (view s)) {s t : σ}
    (hst : view s = view t) {x y : Except Error α} (h : Agree seen x y) :
    Agree view (x.map fun a => set a s) (y.map fun a => set a t) :=
  h.map fun a b hab => by rw [hset, hset, hab, hst]

theorem fits_required (h : Respects G shape decode seen) (name : String)
    (hset : ∀ a s, view (set a s) = set (seen a) (view s)) :
    Fits G view blank ⟨name, none, shape⟩ (requiredField name decode set) where
  name := rfl
  optional := fun h => absurd rfl h
  default := fun _ h => nomatch h
  congr := fun manner r _ _ hst => agree_set hset hst (.refl seen (decode manner r))
  respects := fun manner r r' _ hedit => agree_set hset rfl (h manner r r' hedit)

theorem fits_optional (h : Respects G shape decode seen) (name : String) {value : Value} {a : α}
    (hdefault : Takes decode value a)
    (hset : ∀ a s, view (set a s) = set (seen a) (view s))
    (hblank : set a blank = blank) :
    Fits G view blank ⟨name, some value, shape⟩ (optionalField name decode set) where
  name := rfl
  optional := fun _ => rfl
  default := by
    rintro _ ⟨⟩ manner
    exact map_eq_ok_iff.mpr ⟨a, hdefault manner, hblank⟩
  congr := fun manner r _ _ hst => agree_set hset hst (.refl seen (decode manner r))
  respects := fun manner r r' _ hedit => agree_set hset rfl (h manner r r' hedit)

end Fields

/-- A field may be read before or after a member is kept. -/
def FieldDecoder.KeptApart (d : FieldDecoder σ) (keep : String → Value → σ → σ) : Prop :=
  ∀ manner r key v s, d.read manner r (keep key v s) = (d.read manner r s).map (keep key v)

theorem keptApart_of_set {decode : Decoder α} {set : α → σ → σ} {keep : String → Value → σ → σ}
    (h : ∀ a key v s, set a (keep key v s) = keep key v (set a s)) {name : String}
    {required : Bool} :
    FieldDecoder.KeptApart
      ⟨name, required, fun manner r s => (decode manner r).map fun a => set a s⟩ keep := by
  intro manner r key v s
  simp only
  cases decode manner r with
  | error e => rfl
  | ok a => exact congrArg Except.ok (h a key v s)

/-- Members that are no fields are kept apart from the fields, each under its key. -/
structure KeepsApart (view : σ → σ) (fields : List (FieldDecoder σ))
    (keep : String → Value → σ → σ) : Prop where
  congr : ∀ key v v' s t, v.ordered = v'.ordered → view s = view t →
    view (keep key v s) = view (keep key v' t)
  comm : ∀ key key' v v' s, key ≠ key' →
    view (keep key' v' (keep key v s)) = view (keep key v (keep key' v' s))
  field : ∀ d ∈ fields, d.KeptApart keep

/-- Members are kept apart if in the view they are given places. -/
theorem keepsApart_of_placed {view : σ → σ} {fields : List (FieldDecoder σ)}
    {keep : String → Value → σ → σ} (placed : String → Value → σ → σ)
    (hview : ∀ key v s, view (keep key v s) = placed key v.ordered (view s))
    (hcomm : ∀ key key' v v' s, key ≠ key' →
      placed key' v' (placed key v s) = placed key v (placed key' v' s))
    (hfields : ∀ d ∈ fields, d.KeptApart keep) : KeepsApart view fields keep where
  congr := fun key v v' s t hv hst => by rw [hview, hview, hv, hst]
  comm := fun key key' v v' s hne => by simp only [hview, hcomm _ _ _ _ _ hne]
  field := hfields

/-- A schema is that of a kind of node. -/
structure Schema.Presents (schema : Schema σ) (G : Grammar K) (kind : K) (view : σ → σ) :
    Prop where
  fields : List.Forall₂ (Fits G view schema.blank) (G.fields kind) schema.fields
  distinct : schema.names.Nodup
  independent : schema.fields.Pairwise FieldDecoder.Independent
  closed : G.isOpen kind = false → schema.keep = none
  keeps : ∀ keep, schema.keep = some keep → KeepsApart view schema.fields keep

section Schemas

variable {schema : Schema σ} {G : Grammar K} {kind : K} {view : σ → σ}

theorem Schema.presents_closed (hclosed : schema.keep = none) (names : List String)
    (hnames : schema.names = names) (hdistinct : names.Nodup)
    (hfields : List.Forall₂ (Fits G view schema.blank) (G.fields kind) schema.fields)
    (hindependent : schema.fields.Pairwise FieldDecoder.Independent) :
    schema.Presents G kind view where
  fields := hfields
  distinct := hnames ▸ hdistinct
  independent := hindependent
  closed := fun _ => hclosed
  keeps := fun _ hkeep => nomatch hclosed.symm.trans hkeep

theorem Schema.presents_open {keep : String → Value → σ → σ} (hkeep : schema.keep = some keep)
    (hopen : G.isOpen kind = true) (names : List String) (hnames : schema.names = names)
    (hdistinct : names.Nodup)
    (hfields : List.Forall₂ (Fits G view schema.blank) (G.fields kind) schema.fields)
    (hindependent : schema.fields.Pairwise FieldDecoder.Independent)
    (hapart : KeepsApart view schema.fields keep) : schema.Presents G kind view where
  fields := hfields
  distinct := hnames ▸ hdistinct
  independent := hindependent
  closed := fun hclosed => nomatch hopen.symm.trans hclosed
  keeps := fun _ hkeep' => Option.some.inj (hkeep.symm.trans hkeep') ▸ hapart

end Schemas

/-! ### Records -/

namespace Schema

variable {schema : Schema σ}

/-- Takes one member, as a field or as another one. -/
def step (schema : Schema σ) (manner : Manner) (s : σ) (m : ReadMember) : Except Error σ :=
  match schema.fields.find? (·.name == m.key) with
  | some d => d.read manner m.value s
  | none => schema.takeOther m s

theorem step_field (hnames : schema.names.Nodup) {d : FieldDecoder σ} (hd : d ∈ schema.fields)
    (manner : Manner) (r : Reading) (skipFault : Option Fault) (s : σ) :
    schema.step manner s ⟨d.name, r, skipFault⟩ = d.read manner r s := by
  rw [step, find?_of_nodup FieldDecoder.name hnames hd]

theorem step_other {m : ReadMember} (h : m.key ∉ schema.names) (manner : Manner) (s : σ) :
    schema.step manner s m = schema.takeOther m s := by
  rw [step, find?_of_not_mem h]

/-- The names of fields among the keys of members, the last one first. -/
def namesRead (schema : Schema σ) (members : List ReadMember) : List String :=
  ((members.map (·.key)).filter (· ∈ schema.names)).reverse

/-- Members under different keys are taken one after the other. -/
theorem readMembers_eq_foldlM (hnames : schema.names.Nodup) {members : List ReadMember}
    (hkeys : (members.map (·.key)).Nodup) {seen : List String} (hseen : ∀ m ∈ members, m.key ∉ seen)
    (manner : Manner) (s : σ) :
    schema.readMembers manner seen members s =
      (members.foldlM (schema.step manner) s).map fun t =>
        (schema.namesRead members ++ seen, t) := by
  induction members generalizing seen s with
  | nil => rfl
  | cons m rest ih =>
      rw [List.map_cons, List.nodup_cons] at hkeys
      rw [List.forall_mem_cons] at hseen
      rw [List.foldlM_cons]
      by_cases hm : m.key ∈ schema.names
      · obtain ⟨d, hd, hname⟩ := List.mem_map.mp hm
        obtain ⟨key, r, skipFault⟩ := m
        subst hname
        have hlater : ∀ m ∈ rest, m.key ∉ d.name :: seen := by
          intro m' hm' hmem
          rcases List.mem_cons.mp hmem with heq | hmem
          · exact hkeys.1 (List.mem_map.mpr ⟨m', hm', heq⟩)
          · exact hseen.2 m' hm' hmem
        rw [readMembers_field hnames hd hseen.1, step_field hnames hd]
        cases d.read manner r s with
        | error e => rfl
        | ok t =>
            rw [ok_bind, ok_bind, ih hkeys.2 hlater]
            simp [namesRead, hm]
      · rw [readMembers_other hm, step_other hm]
        cases schema.takeOther m s with
        | error e => rfl
        | ok t =>
            rw [ok_bind, ok_bind, ih hkeys.2 hseen.2]
            simp [namesRead, hm]

theorem mem_namesRead {members : List ReadMember} {name : String} :
    name ∈ schema.namesRead members ↔ name ∈ members.map (·.key) ∧ name ∈ schema.names := by
  rw [namesRead, List.mem_reverse, List.mem_filter, decide_eq_true_iff]

/-- No field that may not be missing is missing. -/
def Complete (schema : Schema σ) (members : List ReadMember) : Prop :=
  ∀ d ∈ schema.fields, d.required = true → d.name ∈ members.map (·.key)

theorem missing?_namesRead {members : List ReadMember} :
    schema.missing? (schema.namesRead members ++ []) = none ↔ schema.Complete members := by
  rw [List.append_nil, missing?, Option.map_eq_none_iff, List.find?_eq_none]
  refine forall₂_congr fun d hd => ?_
  have hname : d.name ∈ schema.names := List.mem_map_of_mem hd
  rw [Bool.and_eq_true, not_and, Bool.not_eq_true', Bool.not_eq_false, List.contains_iff_mem,
    mem_namesRead, and_iff_left hname]

/-- Two objects are decoded alike if their members lead to records that look alike, and both
are complete or neither. -/
theorem agree_ofMembers {view : σ → σ} (hnames : schema.names.Nodup)
    {members members' : List ReadMember} (hkeys : (members.map (·.key)).Nodup)
    (hkeys' : (members'.map (·.key)).Nodup) {manner : Manner}
    (hfold : Agree view (members.foldlM (schema.step manner) schema.blank)
      (members'.foldlM (schema.step manner) schema.blank))
    (hcomplete : schema.Complete members ↔ schema.Complete members') (fault : Option Fault) :
    Agree view (schema.ofMembers manner members fault)
      (schema.ofMembers manner members' fault) := by
  rw [ofMembers, ofMembers, readMembers_eq_foldlM hnames hkeys (fun _ _ => List.not_mem_nil),
    readMembers_eq_foldlM hnames hkeys' (fun _ _ => List.not_mem_nil)]
  rw [← missing?_namesRead, ← missing?_namesRead] at hcomplete
  generalize members.foldlM (schema.step manner) schema.blank = x at hfold ⊢
  generalize members'.foldlM (schema.step manner) schema.blank = y at hfold ⊢
  cases hfold with
  | error e e' => exact .error e e'
  | ok h =>
      simp only [Except.map, ok_bind]
      refine (Agree.refl id (sound fault)).bind fun _ _ _ => ?_
      split
      next name hname =>
        split
        next name' hname' => exact .error _ _
        next hname' => exact absurd (hcomplete.mpr hname') (hname ▸ Option.some_ne_none name)
      next hname =>
        split
        next name' hname' => exact absurd (hcomplete.mp hname) (hname' ▸ Option.some_ne_none name')
        next => exact .ok h

theorem complete_of_perm {members members' : List ReadMember} (hperm : members.Perm members') :
    schema.Complete members ↔ schema.Complete members' := by
  refine forall₂_congr fun d _ => imp_congr_right fun _ => ?_
  rw [(hperm.map _).mem_iff]

end Schema

/-! ### Edited records -/

/-- An item of an array, and what it may be exchanged for wherever it stands. -/
def Exchanged (r r' : Reading) : Prop :=
  r = r' ∨ r.KeysDistinct ∧ r'.KeysDistinct ∧ r.Rearranged r'

namespace Schema.Presents

variable {schema : Schema σ} {G : Grammar K} {kind : K} {view : σ → σ}
  (h : schema.Presents G kind view)

include h

theorem exists_fits {d : FieldDecoder σ} (hd : d ∈ schema.fields) :
    ∃ field, Fits G view schema.blank field d := by
  obtain ⟨field, -, hfits⟩ := exists_left_of_forall₂ h.fields hd
  exact ⟨field, hfits⟩

theorem exists_decoder {field : FieldForm K} (hfield : field ∈ G.fields kind) :
    ∃ d ∈ schema.fields, Fits G view schema.blank field d :=
  exists_right_of_forall₂ h.fields hfield

theorem mem_fieldNames {name : String} (hname : name ∈ schema.names) :
    name ∈ G.fieldNames kind := by
  obtain ⟨d, hd, rfl⟩ := List.mem_map.mp hname
  obtain ⟨field, hfield, hfits⟩ := exists_left_of_forall₂ h.fields hd
  exact List.mem_map.mpr ⟨field, hfield, hfits.name.symm⟩

theorem independent_of_ne {d d' : FieldDecoder σ} (hd : d ∈ schema.fields)
    (hd' : d' ∈ schema.fields) (hne : d ≠ d') : d.Independent d' :=
  h.independent.forall hd hd' hne

theorem agree_takeOther (m : ReadMember) {s t : σ} (hst : view s = view t) :
    Agree view (schema.takeOther m s) (schema.takeOther m t) := by
  cases hkeep : schema.keep with
  | none =>
      simp only [takeOther, hkeep]
      exact (Agree.refl id (sound m.skipFault)).map fun _ _ _ => hst
  | some keep =>
      simp only [takeOther, hkeep]
      exact .ok ((h.keeps keep hkeep).congr _ _ _ _ _ rfl hst)

theorem agree_step (manner : Manner) (m : ReadMember) (s t : σ) (hst : view s = view t) :
    Agree view (schema.step manner s m) (schema.step manner t m) := by
  rw [step, step]
  split
  next d hd =>
    obtain ⟨field, hfits⟩ := h.exists_fits (List.mem_of_find?_eq_some hd)
    exact hfits.congr manner m.value s t hst
  next => exact h.agree_takeOther m hst

/-! #### The order of members -/

theorem comm_others (m m' : ReadMember) (s : σ) (hne : m.key ≠ m'.key) :
    Agree view (schema.takeOther m s >>= fun t => schema.takeOther m' t)
      (schema.takeOther m' s >>= fun t => schema.takeOther m t) := by
  cases hkeep : schema.keep with
  | none =>
      simp only [takeOther, hkeep]
      cases m.skipFault <;> cases m'.skipFault
      · exact .ok rfl
      · exact .error _ _
      · exact .error _ _
      · exact .error _ _
  | some keep =>
      simp only [takeOther, hkeep, ok_bind]
      exact .ok ((h.keeps keep hkeep).comm _ _ _ _ _ hne)

theorem comm_field_other {d : FieldDecoder σ} (hd : d ∈ schema.fields) (manner : Manner)
    (r : Reading) (m : ReadMember) (s : σ) :
    Agree view (d.read manner r s >>= fun t => schema.takeOther m t)
      (schema.takeOther m s >>= fun t => d.read manner r t) := by
  cases hkeep : schema.keep with
  | none =>
      simp only [takeOther, hkeep]
      cases m.skipFault with
      | none =>
          simp only [sound, Except.map, ok_bind]
          cases d.read manner r s with
          | error e => exact .error e e
          | ok t => exact .ok rfl
      | some fault =>
          cases d.read manner r s with
          | error e => exact .error _ _
          | ok t => exact .error _ _
  | some keep =>
      simp only [takeOther, hkeep, ok_bind, (h.keeps keep hkeep).field d hd manner r]
      exact .refl view _

/-- Two members may be taken in either order. -/
theorem comm_step (manner : Manner) (m m' : ReadMember) (s : σ) (hne : m.key ≠ m'.key) :
    Agree view (schema.step manner s m >>= fun t => schema.step manner t m')
      (schema.step manner s m' >>= fun t => schema.step manner t m) := by
  simp only [step]
  cases hd : schema.fields.find? (·.name == m.key) with
  | none =>
      cases hd' : schema.fields.find? (·.name == m'.key) with
      | none => exact h.comm_others m m' s hne
      | some d' => exact (h.comm_field_other (List.mem_of_find?_eq_some hd') _ _ m s).symm
  | some d =>
      have hmem := List.mem_of_find?_eq_some hd
      cases hd' : schema.fields.find? (·.name == m'.key) with
      | none => exact h.comm_field_other hmem _ _ m' s
      | some d' =>
          have hname : d.name = m.key := by simpa using List.find?_some hd
          have hname' : d'.name = m'.key := by simpa using List.find?_some hd'
          have hdiffer : d ≠ d' := fun heq => hne (hname.symm.trans (heq ▸ hname'))
          exact .of_id (h.independent_of_ne hmem (List.mem_of_find?_eq_some hd') hdiffer _ _ _ _)
            view

/-! #### Members -/

/-- Objects that differ in what stands first under a key. -/
theorem agree_first {manner : Manner} {key : String} {r r' : Reading} {skipFault : Option Fault}
    {rest : List ReadMember} {fault : Option Fault}
    (hr : (Reading.object (⟨key, r, skipFault⟩ :: rest) fault).KeysDistinct)
    (hr' : (Reading.object (⟨key, r', skipFault⟩ :: rest) fault).KeysDistinct)
    (hstep : Agree view (schema.step manner schema.blank ⟨key, r, skipFault⟩)
      (schema.step manner schema.blank ⟨key, r', skipFault⟩)) :
    Agree view (schema.decode manner (.object (⟨key, r, skipFault⟩ :: rest) fault))
      (schema.decode manner (.object (⟨key, r', skipFault⟩ :: rest) fault)) := by
  rw [Reading.keysDistinct_object] at hr hr'
  refine agree_ofMembers h.distinct hr.1 hr'.1 ?_ Iff.rfl fault
  rw [List.foldlM_cons, List.foldlM_cons]
  exact hstep.bind fun s t hst => agree_foldlM (h.agree_step manner) rest hst

/-- Objects of which the second has one more member, which leaves the blank record as it is. -/
theorem agree_added {manner : Manner} {m : ReadMember} {members : List ReadMember}
    {fault : Option Fault} (hr : (Reading.object members fault).KeysDistinct)
    (hr' : (Reading.object (m :: members) fault).KeysDistinct)
    (hstep : schema.step manner schema.blank m = .ok schema.blank)
    (hrequired : ∀ d ∈ schema.fields, d.required = true → d.name ≠ m.key) :
    Agree view (schema.decode manner (.object members fault))
      (schema.decode manner (.object (m :: members) fault)) := by
  rw [Reading.keysDistinct_object] at hr hr'
  refine agree_ofMembers h.distinct hr.1 hr'.1 ?_ ?_ fault
  · rw [List.foldlM_cons, hstep, ok_bind]
    exact .refl view _
  · refine forall₂_congr fun d hd => imp_congr_right fun hd' => ?_
    rw [List.map_cons, List.mem_cons, or_iff_right (hrequired d hd hd')]

theorem agree_step_rearranged (manner : Manner) {key : String} {r r' : Reading}
    (skipFault : Option Fault) (hr : r.KeysDistinct) (hr' : r'.KeysDistinct)
    (hedit : r.Rearranged r') (s : σ) :
    Agree view (schema.step manner s ⟨key, r, skipFault⟩)
      (schema.step manner s ⟨key, r', skipFault⟩) := by
  simp only [step]
  split
  next d hd =>
    obtain ⟨field, hfits⟩ := h.exists_fits (List.mem_of_find?_eq_some hd)
    exact hfits.respects manner r r' s ⟨hr, hr', .rearrange hedit⟩
  next =>
    cases hkeep : schema.keep with
    | none =>
        simp only [takeOther, hkeep]
        exact .refl view _
    | some keep =>
        simp only [takeOther, hkeep]
        exact .ok ((h.keeps keep hkeep).congr _ _ _ _ _ (hedit.ordered_toValue hr) rfl)

theorem agree_filled {manner : Manner} {field : FieldForm K} {value : Value}
    {members : List ReadMember} {fault : Option Fault} (hfield : field ∈ G.fields kind)
    (hdefault : field.default = some value) (hr : (Reading.object members fault).KeysDistinct)
    (hr' : (Reading.object (Reading.ofMember (field.name, value) :: members) fault).KeysDistinct) :
    Agree view (schema.decode manner (.object members fault))
      (schema.decode manner (.object (Reading.ofMember (field.name, value) :: members) fault)) := by
  obtain ⟨d, hd, hfits⟩ := h.exists_decoder hfield
  refine h.agree_added hr hr' ?_ fun d' hd' hrequired hname => ?_
  · rw [Reading.ofMember, ← hfits.name, step_field h.distinct hd]
    exact hfits.default value hdefault manner
  · have hsame : d' = d := List.inj_on_of_nodup_map h.distinct hd' hd (hname.trans hfits.name.symm)
    have hoptional := hfits.optional (hdefault ▸ Option.some_ne_none value)
    exact Bool.false_ne_true (hoptional.symm.trans (hsame ▸ hrequired))

theorem agree_ignored {manner : Manner} {m : ReadMember} {members : List ReadMember}
    {fault : Option Fault} (hclosed : G.isOpen kind = false) (hother : m.key ∉ G.fieldNames kind)
    (hskip : m.skipFault = none) (hr : (Reading.object members fault).KeysDistinct)
    (hr' : (Reading.object (m :: members) fault).KeysDistinct) :
    Agree view (schema.decode manner (.object members fault))
      (schema.decode manner (.object (m :: members) fault)) := by
  have hname : m.key ∉ schema.names := fun hmem => hother (h.mem_fieldNames hmem)
  refine h.agree_added hr hr' ?_ fun d hd _ heq => hname (heq ▸ List.mem_map_of_mem hd)
  rw [step_other hname, takeOther, h.closed hclosed, hskip]
  rfl

theorem agree_field {manner : Manner} {field : FieldForm K} {r r' : Reading}
    {skipFault : Option Fault} {members : List ReadMember} {fault : Option Fault}
    (hfield : field ∈ G.fields kind) (hedit : Edit G field.shape r r')
    (hr : (Reading.object (⟨field.name, r, skipFault⟩ :: members) fault).KeysDistinct)
    (hr' : (Reading.object (⟨field.name, r', skipFault⟩ :: members) fault).KeysDistinct) :
    Agree view (schema.decode manner (.object (⟨field.name, r, skipFault⟩ :: members) fault))
      (schema.decode manner (.object (⟨field.name, r', skipFault⟩ :: members) fault)) := by
  refine h.agree_first hr hr' ?_
  rw [Reading.keysDistinct_object] at hr hr'
  obtain ⟨d, hd, hfits⟩ := h.exists_decoder hfield
  rw [← hfits.name, step_field h.distinct hd, step_field h.distinct hd]
  exact hfits.respects manner r r' _
    ⟨hr.2 _ List.mem_cons_self, hr'.2 _ List.mem_cons_self, hedit⟩

/-! #### Items -/

theorem agree_readItems (manner : Manner) (fault : Option Fault) {fields : List (FieldDecoder σ)}
    (hfields : fields ⊆ schema.fields) (index : Nat) {items items' : List Reading}
    (hitems : List.Forall₂ Exchanged items items') {s t : σ} (hst : view s = view t) :
    Agree (fun p => (p.1.length, view p.2)) (schema.readItems manner fault index fields items s)
      (schema.readItems manner fault index fields items' t) := by
  induction fields generalizing index items items' s t with
  | nil => exact .ok (by simp only [hitems.length_eq, hst])
  | cons d fields ih =>
      rw [List.cons_subset] at hfields
      cases hitems with
      | nil =>
          refine (Agree.refl id (sound fault)).bind fun _ _ _ => ?_
          split
          · exact .error _ _
          · exact ih hfields.2 _ .nil hst
      | @cons r r' items items' hr hitems =>
          obtain ⟨field, hfits⟩ := h.exists_fits hfields.1
          have hread : Agree view (d.read manner r s) (d.read manner r' t) := by
            refine (hfits.congr manner r s t hst).trans ?_
            rcases hr with rfl | ⟨hr, hr', hedit⟩
            · exact .refl view _
            · exact hfits.respects manner r r' t ⟨hr, hr', .rearrange hedit⟩
          exact hread.bind fun a b hab => ih hfields.2 _ hitems hab

omit h in
theorem agree_surplus (manner : Manner) (length : Nat) {left left' : List Reading}
    (hleft : left.length = left'.length) (fault : Option Fault) :
    Agree id (schema.surplus manner length left fault)
      (schema.surplus manner length left' fault) := by
  cases left with
  | nil =>
      rw [List.eq_nil_of_length_eq_zero hleft.symm]
      exact .refl id _
  | cons r left =>
      cases left' with
      | nil => cases hleft
      | cons r' left' => cases manner <;> exact .error _ _

theorem agree_array {manner : Manner} {items items' : List Reading} {fault : Option Fault}
    (hitems : List.Forall₂ Exchanged items items') :
    Agree view (schema.decode manner (.array items fault))
      (schema.decode manner (.array items' fault)) := by
  simp only [decode]
  split
  · exact .error _ _
  · refine (h.agree_readItems manner fault (fun _ hd => hd) 0 hitems rfl).bind fun p q hpq => ?_
    obtain ⟨hleft, hview⟩ := Prod.mk.inj hpq
    rw [hitems.length_eq]
    exact (agree_surplus manner _ hleft fault).bind fun _ _ _ => .ok hview

/-- A record respects all edits of a node of its kind. -/
theorem respects : Respects G (.node kind) schema.decode view := by
  rintro manner r r' ⟨hr, hr', hedit⟩
  cases hedit with
  | rearrange hedit =>
      cases hedit with
      | @item before after s s' fault hedit =>
          rw [Reading.keysDistinct_array] at hr hr'
          refine h.agree_array (forall₂_of_item (fun _ => .inl rfl) ?_ before after)
          exact .inr ⟨hr s (by simp), hr' s' (by simp), hedit⟩
      | members hperm =>
          have hkeys := Reading.keysDistinct_object.mp hr
          have hkeys' := Reading.keysDistinct_object.mp hr'
          exact agree_ofMembers h.distinct hkeys.1 hkeys'.1
            (agree_foldlM_of_perm (h.agree_step manner) (fun m m' s => h.comm_step manner m m' s)
              hperm hkeys.1 rfl)
            (complete_of_perm hperm) _
      | member hedit =>
          have hvalues := (Reading.keysDistinct_object.mp hr).2
          have hvalues' := (Reading.keysDistinct_object.mp hr').2
          exact h.agree_first hr hr' (h.agree_step_rearranged manner _
            (hvalues _ List.mem_cons_self) (hvalues' _ List.mem_cons_self) hedit _)
  | fill hfield hdefault => exact h.agree_filled hfield hdefault hr hr'
  | ignore hclosed hother _ hskip => exact h.agree_ignored hclosed hother hskip hr hr'
  | field hfield hedit => exact h.agree_field hfield hedit hr hr'

end Schema.Presents

end Decode

end CurlyTemplate
