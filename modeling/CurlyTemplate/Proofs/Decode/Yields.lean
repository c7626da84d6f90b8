import CurlyTemplate.Proofs.Decode.Records
import CurlyTemplate.Proofs.Json.Holding

/-!
# What decoders yield

`Yields P decode Q` says that whatever is decoded has the property `Q`, if the numbers in
the reading have the property `P`. A record has an invariant that holds of the blank record
and that every field keeps (`Schema.of_decode`), whether it is decoded from an object, with
fields in any order, or from an array. Nothing is asked of the reading but its numbers: it
may have faults, repeat keys or leave members out.
-/

namespace CurlyTemplate

namespace Decode

open Json (Fault Number Reading ReadMember Value)

variable {P : Number → Prop} {α σ : Type}

/-- Whatever is decoded has a property, if the numbers in the reading have theirs. -/
def Yields (P : Number → Prop) (decode : Decoder α) (Q : α → Prop) : Prop :=
  ∀ manner r a, r.Holds P → decode manner r = .ok a → Q a

theorem Yields.imp {decode : Decoder α} {Q R : α → Prop} (h : Yields P decode Q)
    (himp : ∀ a, Q a → R a) : Yields P decode R :=
  fun manner r a hr hread => himp a (h manner r a hr hread)

theorem yields_true (decode : Decoder α) : Yields P decode fun _ => True :=
  fun _ _ _ _ _ => trivial

theorem yields_natural : Yields P natural fun n => P (.int n) := by
  intro manner r n hr h
  cases r with
  | number m =>
      cases m with
      | int m =>
          simp only [natural] at h
          split at h
          next hm =>
            cases h
            rw [Int.toNat_of_nonneg hm]
            exact hr
          next => cases h
      | float x => cases h
  | null | bool | string | array | object | broken => cases h

theorem yields_double (h : ∀ n, P (.int n) → P (.float (Float.ofInt n))) :
    Yields P double fun x => P (.float x) := by
  intro manner r x hr hread
  cases r with
  | number m =>
      cases m with
      | int n =>
          cases hread
          exact h n hr
      | float x =>
          cases hread
          exact hr
  | null | bool | string | array | object | broken => cases hread

theorem Yields.optional {item : Decoder α} {Q : α → Prop} (h : Yields P item Q) :
    Yields P (optional item) fun o => ∀ a, o = some a → Q a := by
  rintro manner r o hr hread a rfl
  rw [Decode.optional.eq_def] at hread
  split at hread
  · cases hread
  · obtain ⟨b, hb, heq⟩ := map_eq_ok_iff.mp hread
    cases heq
    exact h manner r a hr hb

theorem Yields.list {item : Decoder α} {Q : α → Prop} (h : Yields P item Q) :
    Yields P (list item) fun xs => ∀ x ∈ xs, Q x := by
  intro manner r xs hr hread x hx
  cases r with
  | array items fault =>
      obtain ⟨ys, hitems, hread⟩ := bind_eq_ok_iff.mp hread
      obtain ⟨-, -, heq⟩ := bind_eq_ok_iff.mp hread
      cases heq
      obtain ⟨r, hmem, hread⟩ := exists_mem_of_mapM hitems hx
      exact h manner r x (Reading.holds_array.mp hr r hmem) hread
  | null | bool | number | string | object | broken => cases hread

/-! ### Records -/

/-- A field keeps an invariant of the record. -/
def FieldDecoder.Keeps (P : Number → Prop) (field : FieldDecoder σ) (I : σ → Prop) : Prop :=
  ∀ manner r s t, r.Holds P → I s → field.read manner r s = .ok t → I t

section Fields

variable {decode : Decoder α} {Q : α → Prop} {I : σ → Prop} {set : α → σ → σ} {name : String}

theorem keeps_required (hdecode : Yields P decode Q) (hset : ∀ a s, Q a → I s → I (set a s)) :
    (requiredField name decode set).Keeps P I := by
  intro manner r s t hr hs hread
  obtain ⟨a, ha, rfl⟩ := map_eq_ok_iff.mp hread
  exact hset a s (hdecode manner r a hr ha) hs

theorem keeps_optional (hdecode : Yields P decode Q) (hset : ∀ a s, Q a → I s → I (set a s)) :
    (optionalField name decode set).Keeps P I := by
  intro manner r s t hr hs hread
  obtain ⟨a, ha, rfl⟩ := map_eq_ok_iff.mp hread
  exact hset a s (hdecode manner r a hr ha) hs

theorem keeps_nil : ∀ field ∈ ([] : List (FieldDecoder σ)), field.Keeps P I :=
  nofun

theorem keeps_cons {field : FieldDecoder σ} {fields : List (FieldDecoder σ)}
    (h : field.Keeps P I) (hrest : ∀ field ∈ fields, field.Keeps P I) :
    ∀ f ∈ field :: fields, f.Keeps P I :=
  (List.forall_mem_cons (p := (FieldDecoder.Keeps P · I))).mpr ⟨h, hrest⟩

theorem keeps_append {fields others : List (FieldDecoder σ)}
    (h : ∀ field ∈ fields, field.Keeps P I) (hothers : ∀ field ∈ others, field.Keeps P I) :
    ∀ field ∈ fields ++ others, field.Keeps P I :=
  List.forall_mem_append.mpr ⟨h, hothers⟩

end Fields

namespace Schema

variable {schema : Schema σ} {I : σ → Prop} {manner : Manner}

/-- An open record keeps its invariant with every member that is no field. -/
def KeepsOthers (P : Number → Prop) (schema : Schema σ) (I : σ → Prop) : Prop :=
  ∀ keep, schema.keep = some keep → ∀ key value s, key ∉ schema.names → key ≠ tagKey →
    value.KeysDistinct → value.Holds P → I s → I (keep key value s)

theorem of_readItems (hfields : ∀ field ∈ schema.fields, field.Keeps P I) {fault : Option Fault}
    {index : Nat} {fields : List (FieldDecoder σ)} (hsub : ∀ field ∈ fields, field ∈ schema.fields)
    {items left : List Reading} (hitems : ∀ r ∈ items, r.Holds P) {s t : σ} (hs : I s)
    (h : schema.readItems manner fault index fields items s = .ok (left, t)) : I t := by
  induction fields generalizing index items s with
  | nil =>
      cases h
      exact hs
  | cons field fields ih =>
      rw [List.forall_mem_cons] at hsub
      cases items with
      | nil =>
          obtain ⟨-, -, h⟩ := bind_eq_ok_iff.mp h
          split at h
          · cases h
          · exact ih hsub.2 hitems hs h
      | cons r items =>
          rw [List.forall_mem_cons] at hitems
          obtain ⟨u, hu, h⟩ := bind_eq_ok_iff.mp h
          exact ih hsub.2 hitems.2 (hfields field hsub.1 manner r s u hitems.1 hs hu) h

theorem of_readMembers (hfields : ∀ field ∈ schema.fields, field.Keeps P I)
    (hothers : schema.KeepsOthers P I) {seen seen' : List String} {members : List ReadMember}
    (hmembers : ∀ m ∈ members, m.value.Holds P)
    (htag : schema.keep = none ∨ ∀ m ∈ members, m.key ≠ tagKey) {s t : σ} (hs : I s)
    (h : schema.readMembers manner seen members s = .ok (seen', t)) : I t := by
  induction members generalizing seen s with
  | nil =>
      cases h
      exact hs
  | cons m rest ih =>
      rw [List.forall_mem_cons] at hmembers
      rw [List.forall_mem_cons] at htag
      have hrest := htag.imp_right And.right
      rw [readMembers] at h
      split at h
      next hfind =>
        obtain ⟨u, hu, h⟩ := bind_eq_ok_iff.mp h
        refine ih hmembers.2 hrest ?_ h
        rw [takeOther] at hu
        split at hu
        next keep hkeep =>
          cases hu
          have hname : m.key ∉ schema.names := by
            intro hmem
            obtain ⟨field, hfield, hname⟩ := List.mem_map.mp hmem
            exact List.find?_eq_none.mp hfind field hfield (beq_iff_eq.mpr hname)
          have hkey : m.key ≠ tagKey := by
            rcases htag with hclosed | htag
            · cases hclosed.symm.trans hkeep
            · exact htag.1
          exact hothers keep hkeep _ _ s hname hkey (Reading.keysDistinct_toValue _)
            (Reading.holds_toValue _ hmembers.1) hs
        next =>
          obtain ⟨-, -, rfl⟩ := map_eq_ok_iff.mp hu
          exact hs
      next field hfind =>
        split at h
        · cases h
        · obtain ⟨u, hu, h⟩ := bind_eq_ok_iff.mp h
          have hfield := List.mem_of_find?_eq_some hfind
          exact ih hmembers.2 hrest (hfields field hfield manner _ s u hmembers.1 hs hu) h

/-- What a record is decoded to has every invariant that the blank record has and that
fields and other members keep. A member under the name of the tag is no further member. -/
theorem of_decode (hblank : I schema.blank) (hfields : ∀ field ∈ schema.fields, field.Keeps P I)
    (hothers : schema.KeepsOthers P I) {r : Reading} (hr : r.Holds P)
    (htag : schema.keep = none ∨ ∀ members fault, r = .object members fault →
      ∀ m ∈ members, m.key ≠ tagKey) {s : σ} (h : schema.decode manner r = .ok s) : I s := by
  cases r with
  | object members fault =>
      obtain ⟨⟨seen, t⟩, hread, h⟩ := bind_eq_ok_iff.mp h
      obtain ⟨-, -, h⟩ := bind_eq_ok_iff.mp h
      split at h
      · cases h
      · cases h
        exact of_readMembers hfields hothers (Reading.holds_object.mp hr)
          (htag.imp_right fun htag => htag _ _ rfl) hblank hread
  | array items fault =>
      rw [decode] at h
      split at h
      · cases h
      · obtain ⟨⟨left, t⟩, hread, h⟩ := bind_eq_ok_iff.mp h
        obtain ⟨-, -, h⟩ := bind_eq_ok_iff.mp h
        cases h
        exact of_readItems hfields (fun _ h => h) (Reading.holds_array.mp hr) hblank hread
  | null | bool | number | string | broken => cases h

/-- A closed record yields its invariant. -/
theorem yields_closed (hclosed : schema.keep = none) (hblank : I schema.blank)
    (hfields : ∀ field ∈ schema.fields, field.Keeps P I) : Yields P schema.decode I :=
  fun _ _ _ hr h => of_decode hblank hfields
    (fun _ hkeep => nomatch hclosed.symm.trans hkeep) hr (.inl hclosed) h

end Schema

/-! ### Unions -/

/-- What a variant makes of a reading without a tag has a property. -/
def Variant.Yields (P : Number → Prop) (variant : Variant α) (Q : α → Prop) : Prop :=
  ∀ manner r a, r.Holds P →
    (∀ members fault, r = .object members fault → ∀ m ∈ members, m.key ≠ tagKey) →
    variant.decode manner r = .ok a → Q a

theorem Variant.yields_closed {schema : Schema σ} {make : σ → α} {I : σ → Prop} {Q : α → Prop}
    (h : Decode.Yields P schema.decode I) (hmake : ∀ s, I s → Q (make s)) :
    (Variant.ofRecord schema make).Yields P Q := by
  intro manner r a hr _ hread
  obtain ⟨s, hs, rfl⟩ := map_eq_ok_iff.mp hread
  exact hmake s (h manner r s hr hs)

theorem Variant.yields_open {schema : Schema σ} {make : σ → α} {I : σ → Prop} {Q : α → Prop}
    (hblank : I schema.blank) (hfields : ∀ field ∈ schema.fields, field.Keeps P I)
    (hothers : schema.KeepsOthers P I) (hmake : ∀ s, I s → Q (make s)) :
    (Variant.ofRecord schema make).Yields P Q := by
  intro manner r a hr htag hread
  obtain ⟨s, hs, rfl⟩ := map_eq_ok_iff.mp hread
  exact hmake s (Schema.of_decode hblank hfields hothers hr (.inr htag) hs)

theorem mem_of_readTag {variants : List (Variant α)} {manner : Manner} {r : Reading}
    {variant : Variant α} (h : readTag variants manner r = .ok variant) : variant ∈ variants := by
  rw [readTag.eq_def] at h
  split at h
  · split at h
    next hfind =>
      cases h
      exact List.mem_of_find?_eq_some hfind
    next => cases h
  · split at h
    · split at h
      next hget =>
        cases h
        exact List.mem_of_getElem? hget
      next => cases h
    · cases h
  · cases h

theorem mem_of_findTag {variants : List (Variant α)} {manner : Manner}
    {tag : Option (Variant α)} {members : List ReadMember} {variant : Variant α}
    (htag : ∀ v, tag = some v → v ∈ variants)
    (h : findTag variants manner tag members = .ok (some variant)) : variant ∈ variants := by
  induction members generalizing tag with
  | nil =>
      cases h
      exact htag variant rfl
  | cons m rest ih =>
      rw [findTag.eq_def] at h
      simp only at h
      split at h
      · split at h
        · cases h
        · obtain ⟨v, hv, h⟩ := bind_eq_ok_iff.mp h
          refine ih (fun w hw => ?_) h
          cases hw
          exact mem_of_readTag hv
      · obtain ⟨-, -, h⟩ := bind_eq_ok_iff.mp h
        exact ih htag h

/-- What all variants of a union yield, the union yields. -/
theorem yields_union {name : String} {variants : List (Variant α)} {Q : α → Prop}
    (h : ∀ variant ∈ variants, variant.Yields P Q) : Yields P (union name variants) Q := by
  intro manner r a hr hread
  cases r with
  | object members fault =>
      obtain ⟨tag, htag, hread⟩ := bind_eq_ok_iff.mp hread
      obtain ⟨-, -, hread⟩ := bind_eq_ok_iff.mp hread
      cases tag with
      | none => cases hread
      | some variant =>
          have hnone : ∀ v, none = some v → v ∈ variants := nofun
          have hmem := mem_of_findTag hnone htag
          refine h variant hmem _ _ a (Reading.holds_object.mpr fun m hm => ?_) ?_ hread
          · exact Reading.holds_object.mp hr m (List.mem_filter.mp hm).1
          · rintro _ _ ⟨rfl, rfl⟩ m hm
            simpa using (List.mem_filter.mp hm).2
  | array items fault =>
      cases items with
      | nil =>
          obtain ⟨-, -, hread⟩ := bind_eq_ok_iff.mp hread
          cases hread
      | cons first rest =>
          obtain ⟨variant, hvariant, hread⟩ := bind_eq_ok_iff.mp hread
          obtain ⟨-, -, hread⟩ := bind_eq_ok_iff.mp hread
          obtain ⟨-, -, hread⟩ := bind_eq_ok_iff.mp hread
          have hrest := (List.forall_mem_cons.mp (Reading.holds_array.mp hr)).2
          exact h variant (mem_of_readTag hvariant) _ _ a (Reading.holds_array.mpr hrest)
            (fun _ _ h => nomatch h) hread
  | null | bool | number | string | broken => cases hread

end Decode

end CurlyTemplate
