import CurlyTemplate.Decode.Union
import CurlyTemplate.Proofs.Json.Values
import CurlyTemplate.Proofs.Results

/-!
# What decoders take

`Takes decode v a` says that a decoder makes `a` of a value, no matter in what manner it
reads. A record takes an object whose members are its fields in the order of their
declaration, each of them taken, where only fields that are not required are left out
(`Filled`). A closed record passes over the name of its kind in front of them, an open
record keeps the members behind them. A union takes a record with the name of its variant in
front.
-/

namespace CurlyTemplate

namespace Decode

open Json (Value Members Reading ReadMember)

variable {α σ : Type}

/-- A decoder makes `a` of the faultless reading of a value. -/
def Takes (decode : Decoder α) (v : Value) (a : α) : Prop :=
  ∀ manner, decode manner (.ofValue v) = .ok a

theorem takes_string (s : String) : Takes string (.string s) s := fun _ => rfl

theorem takes_boolean (b : Bool) : Takes boolean (.bool b) b := fun _ => rfl

theorem takes_natural (n : Nat) : Takes natural (.number (.int n)) n := fun _ => by
  simp [natural, Reading.ofValue]

theorem takes_double (x : Float) : Takes double (.number (.float x)) x := fun _ => rfl

theorem takes_optional_null (item : Decoder α) : Takes (optional item) .null none := fun _ => rfl

theorem takes_optional_string (s : String) : Takes (optional string) (.string s) (some s) :=
  fun _ => rfl

theorem takes_optional_boolean (b : Bool) : Takes (optional boolean) (.bool b) (some b) :=
  fun _ => rfl

theorem takes_optional_object {item : Decoder α} {members : Members} {a : α}
    (h : Takes item (.object members) a) : Takes (optional item) (.object members) (some a) := by
  intro manner
  have hitem := h manner
  rw [Reading.ofValue] at hitem ⊢
  rw [optional, hitem]
  · rfl
  · nofun

theorem takes_list {item : Decoder α} {encode : α → Value} {xs : List α}
    (h : ∀ x ∈ xs, Takes item (encode x) x) : Takes (list item) (.array (xs.map encode)) xs := by
  intro manner
  have hitems := mapM_eq_ok (f := fun x => item manner (.ofValue (encode x))) (g := id)
    fun x hx => h x hx manner
  rw [Reading.ofValue, Reading.ofItems_eq, List.map_map, list, List.mapM_map]
  rw [List.map_id] at hitems
  exact bind_eq_ok_iff.mpr ⟨xs, hitems, rfl⟩

/-- Among things of different names each is found by its name. -/
theorem find?_of_nodup {β : Type} (name : β → String) {xs : List β} (h : (xs.map name).Nodup)
    {x : β} (hx : x ∈ xs) : xs.find? (name · == name x) = some x := by
  induction xs with
  | nil => cases hx
  | cons first rest ih =>
      rw [List.map_cons, List.nodup_cons] at h
      rcases List.mem_cons.mp hx with rfl | hx
      · simp
      · have hne : name first ≠ name x := fun heq => h.1 (heq ▸ List.mem_map_of_mem hx)
        rw [List.find?_cons_of_neg (by simpa using hne), ih h.2 hx]

/-! ### Records -/

/-- The fields of a record are filled by members in the same order; fields that are not
required may be left out. The record is given before and after. -/
inductive Filled : List (FieldDecoder σ) → Members → σ → σ → Prop
  | nil (s : σ) : Filled [] [] s s
  | field {field : FieldDecoder σ} {fields : List (FieldDecoder σ)} {v : Value}
      {members : Members} {s t u : σ} (hv : ∀ manner, field.read manner (.ofValue v) s = .ok t)
      (h : Filled fields members t u) : Filled (field :: fields) ((field.name, v) :: members) s u
  | leave {field : FieldDecoder σ} {fields : List (FieldDecoder σ)} {members : Members} {s u : σ}
      (hfield : field.required = false) (h : Filled fields members s u) :
      Filled (field :: fields) members s u

namespace Filled

variable {decode : Decoder α} {set : α → σ → σ} {fields others : List (FieldDecoder σ)}
  {members rest : Members} {name : String} {v : Value} {a : α} {s t u : σ}

theorem required (hv : Takes decode v a) (h : Filled fields members (set a s) u) :
    Filled (requiredField name decode set :: fields) ((name, v) :: members) s u :=
  .field (fun manner => map_eq_ok_iff.mpr ⟨a, hv manner, rfl⟩) h

theorem optional (hv : Takes decode v a) (h : Filled fields members (set a s) u) :
    Filled (optionalField name decode set :: fields) ((name, v) :: members) s u :=
  .field (fun manner => map_eq_ok_iff.mpr ⟨a, hv manner, rfl⟩) h

theorem append (h : Filled fields members s t) (h' : Filled others rest t u) :
    Filled (fields ++ others) (members ++ rest) s u := by
  induction h with
  | nil => exact h'
  | field hv _ ih => exact .field hv (ih h')
  | leave hfield _ ih => exact .leave hfield (ih h')

end Filled

namespace Schema

/-- The names of the fields of a record. -/
def names (schema : Schema σ) : List String := schema.fields.map (·.name)

variable {schema : Schema σ} {manner : Manner}

theorem find?_of_not_mem {key : String} (h : key ∉ schema.names) :
    schema.fields.find? (·.name == key) = none := by
  rw [List.find?_eq_none]
  intro field hfield hname
  exact h (List.mem_map.mpr ⟨field, hfield, beq_iff_eq.mp hname⟩)

theorem readMembers_field {field : FieldDecoder σ} {r : Reading} {skipFault : Option Json.Fault}
    {rest : List ReadMember} {seen : List String} {s : σ} (hnames : schema.names.Nodup)
    (hfield : field ∈ schema.fields) (hseen : field.name ∉ seen) :
    schema.readMembers manner seen (⟨field.name, r, skipFault⟩ :: rest) s =
      field.read manner r s >>= schema.readMembers manner (field.name :: seen) rest := by
  have hnot : seen.contains field.name = false := by simpa using hseen
  rw [readMembers, find?_of_nodup FieldDecoder.name hnames hfield]
  simp only [hnot, Bool.false_eq_true, if_false]

theorem readMembers_other {member : ReadMember} {rest : List ReadMember} {seen : List String}
    {s : σ} (h : member.key ∉ schema.names) :
    schema.readMembers manner seen (member :: rest) s =
      schema.takeOther member s >>= schema.readMembers manner seen rest := by
  rw [readMembers, find?_of_not_mem h]

/-- Members that fill fields are read one after the other. -/
theorem exists_readMembers_filled {fields : List (FieldDecoder σ)} {members : Members} {s t : σ}
    (manner : Manner) (h : Filled fields members s t) (hnames : schema.names.Nodup)
    (hfields : ∀ field ∈ fields, field ∈ schema.fields) (hdistinct : (fields.map (·.name)).Nodup)
    {seen : List String} (hseen : ∀ field ∈ fields, field.name ∉ seen) (rest : List ReadMember) :
    ∃ seen', schema.readMembers manner seen (members.map Reading.ofMember ++ rest) s =
        schema.readMembers manner seen' rest t ∧
      seen ⊆ seen' ∧ (∀ field ∈ fields, field.required = true → field.name ∈ seen') ∧
      ∀ name ∈ seen', name ∈ seen ∨ name ∈ fields.map (·.name) := by
  induction h generalizing seen with
  | nil => exact ⟨seen, rfl, fun _ h => h, fun _ h => (List.not_mem_nil h).elim, fun _ h => .inl h⟩
  | @field field fields v members s t u hv _ ih =>
      rw [List.forall_mem_cons] at hfields hseen
      rw [List.map_cons, List.nodup_cons] at hdistinct
      have hlater (other) (hother : other ∈ fields) : other.name ∉ field.name :: seen := by
        rw [List.mem_cons, not_or]
        refine ⟨fun heq => hdistinct.1 ?_, hseen.2 other hother⟩
        exact heq ▸ List.mem_map.mpr ⟨other, hother, rfl⟩
      obtain ⟨seen', hread, hsub, hrequired, honly⟩ := ih hfields.2 hdistinct.2 hlater
      refine ⟨seen', ?_, fun name hname => hsub (List.mem_cons_of_mem _ hname), ?_, ?_⟩
      · rw [List.map_cons, List.cons_append, Reading.ofMember,
          readMembers_field hnames hfields.1 hseen.1, hv manner, ok_bind, hread]
      · exact List.forall_mem_cons.mpr ⟨fun _ => hsub List.mem_cons_self, hrequired⟩
      · intro name hname
        rcases honly name hname with hname | hname
        · rcases List.mem_cons.mp hname with rfl | hname
          · exact .inr List.mem_cons_self
          · exact .inl hname
        · exact .inr (List.mem_cons_of_mem _ hname)
  | @leave field fields members s u hfield _ ih =>
      rw [List.forall_mem_cons] at hfields hseen
      rw [List.map_cons, List.nodup_cons] at hdistinct
      obtain ⟨seen', hread, hsub, hrequired, honly⟩ := ih hfields.2 hdistinct.2 hseen.2
      refine ⟨seen', hread, hsub, ?_, fun name hname => ?_⟩
      · refine List.forall_mem_cons.mpr ⟨fun h => ?_, hrequired⟩
        cases hfield.symm.trans h
      · exact (honly name hname).imp_right (List.mem_cons_of_mem _)

/-- Members that are no fields are kept by an open record, in order. `put` is how they
stand in the record. -/
theorem readMembers_open {keep : String → Value → σ → σ} (hopen : schema.keep = some keep)
    {put : Members → σ}
    (hkeep : ∀ key value extra, keep key value (put extra) = put (extra.insert key value))
    (before : Members) {extra : Members} (hextra : ∀ m ∈ extra, m.1 ∉ schema.names)
    (hdistinct : (before ++ extra).keys.Nodup) (hvalues : ∀ m ∈ extra, m.2.KeysDistinct)
    (manner : Manner) (seen : List String) :
    schema.readMembers manner seen (extra.map Reading.ofMember) (put before) =
      .ok (seen, put (before ++ extra)) := by
  induction extra generalizing before with
  | nil => rw [List.append_nil]; rfl
  | cons m extra ih =>
      rw [List.forall_mem_cons] at hextra hvalues
      have hother : (Reading.ofMember m).key ∉ schema.names := hextra.1
      have hnew : m.1 ∉ before.keys := by
        intro hm
        rw [Members.keys, List.map_append] at hdistinct
        exact (List.nodup_append.mp hdistinct).2.2 m.1 hm m.1 List.mem_cons_self rfl
      have htaken : schema.takeOther (Reading.ofMember m) (put before) =
          .ok (put (before ++ [m])) := by
        simp only [takeOther, hopen, Reading.ofMember]
        rw [Reading.toValue_ofValue _ hvalues.1, hkeep, Members.insert_of_not_mem hnew]
      rw [List.map_cons, readMembers_other hother, htaken, ok_bind,
        ih _ hextra.2 (by simpa using hdistinct) hvalues.2, List.append_assoc,
        List.singleton_append]

theorem missing?_eq_none {seen : List String}
    (h : ∀ field ∈ schema.fields, field.required = true → field.name ∈ seen) :
    schema.missing? seen = none := by
  rw [missing?, Option.map_eq_none_iff, List.find?_eq_none]
  intro field hfield hmissing
  rw [Bool.and_eq_true] at hmissing
  have hseen := h field hfield hmissing.1
  simp [hseen] at hmissing

/-- A record takes its fields. -/
theorem takes_fields (names : List String) (hnames : schema.names = names)
    (hdistinct : names.Nodup) {members : Members} {s : σ}
    (h : Filled schema.fields members schema.blank s) :
    Takes schema.decode (.object members) s := by
  subst hnames
  intro manner
  obtain ⟨seen, hread, -, hrequired, -⟩ := exists_readMembers_filled manner h hdistinct
    (fun _ h => h) hdistinct (fun _ _ => List.not_mem_nil) []
  rw [List.append_nil] at hread
  rw [Reading.ofValue, Reading.ofMembers_eq, decode, ofMembers, hread]
  simp only [readMembers, ok_bind, sound, missing?_eq_none hrequired]
  rfl

/-- A closed record that has no field for the name of its kind passes over it. -/
theorem takes_tagged (hclosed : schema.keep = none) (names : List String)
    (hnames : schema.names = names) (hdistinct : (tagKey :: names).Nodup) {tag : Value}
    {members : Members} {s : σ} (h : Filled schema.fields members schema.blank s) :
    Takes schema.decode (.object ((tagKey, tag) :: members)) s := by
  subst hnames
  obtain ⟨htag, hdistinct⟩ := List.nodup_cons.mp hdistinct
  intro manner
  have hfields := takes_fields _ rfl hdistinct h manner
  have hother : (Reading.ofMember (tagKey, tag)).key ∉ schema.names := htag
  rw [Reading.ofValue, Reading.ofMembers_eq, decode, ofMembers] at hfields ⊢
  rw [List.map_cons, readMembers_other hother, takeOther, hclosed]
  exact hfields

/-- An open record takes its fields, and keeps members behind them that are no fields. -/
theorem takes_open {keep : String → Value → σ → σ} (hopen : schema.keep = some keep)
    (put : Members → σ)
    (hkeep : ∀ key value extra, keep key value (put extra) = put (extra.insert key value))
    (names : List String) (hnames : schema.names = names) (hdistinct : names.Nodup)
    {members extra : Members} (hextra : ∀ m ∈ extra, m.1 ∉ names)
    (hkeys : (Value.object extra).KeysDistinct)
    (h : Filled schema.fields members schema.blank (put [])) :
    Takes schema.decode (.object (members ++ extra)) (put extra) := by
  subst hnames
  intro manner
  obtain ⟨seen, hread, -, hrequired, -⟩ := exists_readMembers_filled manner h hdistinct
    (fun _ h => h) hdistinct (fun _ _ => List.not_mem_nil) (extra.map Reading.ofMember)
  rw [Value.keysDistinct_object] at hkeys
  have hkept : schema.readMembers manner seen (extra.map Reading.ofMember) (put []) =
      .ok (seen, put extra) :=
    readMembers_open hopen hkeep [] hextra hkeys.1 hkeys.2 manner seen
  rw [Reading.ofValue, Reading.ofMembers_eq, List.map_append, decode, ofMembers, hread, hkept]
  simp only [ok_bind, sound, missing?_eq_none hrequired]
  rfl

end Schema

/-! ### Unions -/

theorem findTag_untagged {variants : List (Variant α)} {manner : Manner} (tag : Option (Variant α))
    {members : Members} (h : ∀ m ∈ members, m.1 ≠ tagKey) :
    findTag variants manner tag (members.map Reading.ofMember) = .ok tag := by
  induction members with
  | nil => rfl
  | cons m rest ih =>
      rw [List.forall_mem_cons] at h
      have hkey : ((Reading.ofMember m).key == tagKey) = false := by
        simpa [Reading.ofMember] using h.1
      have hsound : (Reading.ofMember m).value.firstFault = none := Reading.firstFault_ofValue m.2
      cases tag <;>
      · rw [List.map_cons, findTag, hkey, hsound]
        exact ih h.2

theorem find?_variant {variants : List (Variant α)} {variant : Variant α} {names : List String}
    (hdistinct : names.Nodup) (hnames : variants.map (·.name) = names) (index : Nat)
    (h : variants[index]? = some variant) :
    variants.find? (·.name == variant.name) = some variant :=
  find?_of_nodup Variant.name (hnames ▸ hdistinct) (List.mem_of_getElem? h)

/-- A union takes what one of its variants takes, with the name of the variant in front. -/
theorem takes_union {name : String} {variants : List (Variant α)} {variant : Variant α}
    (hvariant : variants.find? (·.name == variant.name) = some variant) {members : Members}
    (hkeys : ∀ m ∈ members, m.1 ≠ tagKey) {a : α} (h : Takes variant.decode (.object members) a) :
    Takes (union name variants) (.object ((tagKey, .string variant.name) :: members)) a := by
  intro manner
  have htag : findTag variants manner none
      (((tagKey, .string variant.name) :: members).map Reading.ofMember) = .ok (some variant) := by
    have hread : readTag variants manner (.string variant.name) = .ok variant := by
      simp only [readTag, hvariant]
    rw [List.map_cons, findTag]
    simp only [Reading.ofMember, Reading.ofValue, beq_self_eq_true, if_true, hread, ok_bind]
    exact findTag_untagged _ hkeys
  have hrest : (((tagKey, .string variant.name) :: members).map Reading.ofMember).filter
      (·.key != tagKey) = members.map Reading.ofMember := by
    rw [List.map_cons, List.filter_cons_of_neg (by simp [Reading.ofMember]), List.filter_eq_self]
    intro x hx
    obtain ⟨m, hm, rfl⟩ := List.mem_map.mp hx
    simpa [Reading.ofMember] using hkeys m hm
  have hvariant := h .held
  rw [Reading.ofValue, Reading.ofMembers_eq] at hvariant ⊢
  rw [union, htag]
  simp only [ok_bind, sound, hrest]
  exact hvariant

theorem takes_record {β : Type} {schema : Schema σ} {make : σ → β} {v : Value} {s : σ}
    (h : Takes schema.decode v s) : Takes (Variant.ofRecord schema make).decode v (make s) :=
  fun manner => map_eq_ok_iff.mpr ⟨s, h manner, rfl⟩

end Decode

end CurlyTemplate
