import Mathlib.Data.String.Basic
import CurlyTemplate.Proofs.Json.Holding

/-!
# The order of members

Values that differ in the order of members alone have the same `ordered` form, in which the
keys of every object ascend. A reading is `Rearranged` when the members of one object,
anywhere inside, are put into another order. The values of the two readings then have one
ordered form, and there is a fault in the one just when there is in the other.
-/

namespace CurlyTemplate

namespace Json

namespace Members

/-- Gives a key a value, in the place that it has among ascending keys. -/
def place (key : String) (value : Value) : Members → Members
  | [] => [(key, value)]
  | (k, v) :: rest =>
      if key < k then (key, value) :: (k, v) :: rest
      else if k = key then (key, value) :: rest
      else (k, v) :: place key value rest

theorem place_of_lt {key k : String} (h : key < k) (value v : Value) (rest : Members) :
    place key value ((k, v) :: rest) = (key, value) :: (k, v) :: rest := if_pos h

theorem place_self (key : String) (value v : Value) (rest : Members) :
    place key value ((key, v) :: rest) = (key, value) :: rest := by
  rw [place, if_neg (lt_irrefl key), if_pos rfl]

theorem place_of_gt {key k : String} (h : k < key) (value v : Value) (rest : Members) :
    place key value ((k, v) :: rest) = (k, v) :: place key value rest := by
  rw [place, if_neg h.not_gt, if_neg h.ne]

theorem place_place (key : String) (value other : Value) (members : Members) :
    place key value (place key other members) = place key value members := by
  induction members with
  | nil => exact place_self key value other []
  | cons m rest ih =>
      obtain ⟨k, v⟩ := m
      rcases lt_trichotomy key k with hlt | rfl | hgt
      · rw [place_of_lt hlt, place_self, place_of_lt hlt]
      · rw [place_self, place_self, place_self]
      · rw [place_of_gt hgt, place_of_gt hgt, place_of_gt hgt, ih]

theorem place_comm_of_lt {key other : String} (h : key < other) (value v : Value)
    (members : Members) :
    place key value (place other v members) = place other v (place key value members) := by
  induction members with
  | nil =>
      calc place key value [(other, v)]
        _ = (key, value) :: place other v [] := place_of_lt h _ _ _
        _ = place other v [(key, value)] := (place_of_gt h _ _ _).symm
  | cons m rest ih =>
      obtain ⟨k, w⟩ := m
      rcases lt_trichotomy other k with hlt | rfl | hgt
      · rw [place_of_lt hlt, place_of_lt h, place_of_lt (h.trans hlt), place_of_gt h,
          place_of_lt hlt]
      · rw [place_self, place_of_lt h, place_of_lt h, place_of_gt h, place_self]
      · rw [place_of_gt hgt]
        rcases lt_trichotomy key k with hlt | rfl | hgt'
        · rw [place_of_lt hlt, place_of_lt hlt, place_of_gt h, place_of_gt hgt]
        · rw [place_self, place_self, place_of_gt h]
        · rw [place_of_gt hgt', place_of_gt hgt', place_of_gt hgt, ih]

/-- Two keys get their places in either order. -/
theorem place_comm {key other : String} (h : key ≠ other) (value v : Value) (members : Members) :
    place key value (place other v members) = place other v (place key value members) := by
  rcases lt_or_gt_of_ne h with hlt | hgt
  · exact place_comm_of_lt hlt value v members
  · exact (place_comm_of_lt hgt v value members).symm

end Members

mutual

/-- A value with the members of every object in the order of their keys. -/
def Value.ordered : Value → Value
  | .array items => .array (orderedItems items)
  | .object members => .object (orderedMembers members)
  | v => v

def orderedItems : List Value → List Value
  | [] => []
  | v :: rest => v.ordered :: orderedItems rest

/-- The members of an object in the order of their keys. -/
def orderedMembers : List (String × Value) → List (String × Value)
  | [] => []
  | (key, v) :: rest => Members.place key v.ordered (orderedMembers rest)

end

@[simp] theorem orderedItems_eq (items : List Value) :
    orderedItems items = items.map (·.ordered) := by
  induction items with
  | nil => rfl
  | cons v rest ih => rw [orderedItems, ih, List.map_cons]

theorem orderedMembers_insert (key : String) (value : Value) (members : Members) :
    orderedMembers (members.insert key value) =
      Members.place key value.ordered (orderedMembers members) := by
  induction members with
  | nil => rfl
  | cons m rest ih =>
      obtain ⟨k, v⟩ := m
      by_cases hk : k = key
      · rw [Members.insert, if_pos hk, orderedMembers, orderedMembers, hk, Members.place_place]
      · rw [Members.insert, if_neg hk, orderedMembers, orderedMembers, ih,
          Members.place_comm hk]

/-! ### Readings -/

namespace Reading

/-- No object inside a reading gives a key twice. -/
inductive KeysDistinct : Reading → Prop where
  | null : KeysDistinct .null
  | bool (b : Bool) : KeysDistinct (.bool b)
  | number (n : Number) : KeysDistinct (.number n)
  | string (s : String) : KeysDistinct (.string s)
  | array {items : List Reading} {fault : Option Fault} (h : ∀ r ∈ items, KeysDistinct r) :
      KeysDistinct (.array items fault)
  | object {members : List ReadMember} {fault : Option Fault}
      (hkeys : (members.map (·.key)).Nodup) (h : ∀ m ∈ members, KeysDistinct m.value) :
      KeysDistinct (.object members fault)
  | broken (fault : Fault) : KeysDistinct (.broken fault)

theorem keysDistinct_array {items : List Reading} {fault : Option Fault} :
    (Reading.array items fault).KeysDistinct ↔ ∀ r ∈ items, r.KeysDistinct :=
  ⟨fun h => match h with | .array hitems => hitems, .array⟩

theorem keysDistinct_object {members : List ReadMember} {fault : Option Fault} :
    (Reading.object members fault).KeysDistinct ↔
      (members.map (·.key)).Nodup ∧ ∀ m ∈ members, m.value.KeysDistinct :=
  ⟨fun h => match h with | .object hkeys hvalues => ⟨hkeys, hvalues⟩, fun h => .object h.1 h.2⟩

/-- The faultless reading of a value has its keys. -/
theorem keysDistinct_ofValue (v : Value) (h : v.KeysDistinct) : (ofValue v).KeysDistinct := by
  induction v using Value.induction with
  | null => exact .null
  | bool b => exact .bool b
  | number n => exact .number n
  | string s => exact .string s
  | array items ih =>
      rw [Value.keysDistinct_array] at h
      rw [ofValue, ofItems_eq, keysDistinct_array, List.forall_mem_map]
      exact fun v hv => ih v hv (h v hv)
  | object members ih =>
      rw [Value.keysDistinct_object] at h
      rw [ofValue, ofMembers_eq, keysDistinct_object, List.map_map, List.forall_mem_map]
      exact ⟨h.1, fun m hm => ih m hm (h.2 m hm)⟩

/-- The members of one object, anywhere inside, are put into another order. -/
inductive Rearranged : Reading → Reading → Prop where
  | item {before after : List Reading} {r r' : Reading} {fault : Option Fault}
      (h : Rearranged r r') :
      Rearranged (.array (before ++ r :: after) fault) (.array (before ++ r' :: after) fault)
  | members {members members' : List ReadMember} {fault : Option Fault}
      (h : members.Perm members') : Rearranged (.object members fault) (.object members' fault)
  | member {key : String} {r r' : Reading} {skipFault : Option Fault} {rest : List ReadMember}
      {fault : Option Fault} (h : Rearranged r r') :
      Rearranged (.object (⟨key, r, skipFault⟩ :: rest) fault)
        (.object (⟨key, r', skipFault⟩ :: rest) fault)

theorem faultOfItems_eq_none_iff {items : List Reading} :
    faultOfItems items = none ↔ ∀ r ∈ items, r.firstFault = none := by
  induction items with
  | nil => simp [faultOfItems]
  | cons r rest ih => rw [faultOfItems, Option.or_eq_none_iff, ih, List.forall_mem_cons]

theorem faultOfMembers_eq_none_iff {members : List ReadMember} :
    faultOfMembers members = none ↔ ∀ m ∈ members, m.value.firstFault = none := by
  induction members with
  | nil => simp [faultOfMembers]
  | cons m rest ih =>
      cases m
      rw [faultOfMembers, Option.or_eq_none_iff, ih, List.forall_mem_cons]

theorem firstFault_array_eq_none_iff {items : List Reading} {fault : Option Fault} :
    (Reading.array items fault).firstFault = none ↔
      (∀ r ∈ items, r.firstFault = none) ∧ fault = none := by
  rw [firstFault, Option.or_eq_none_iff, faultOfItems_eq_none_iff]

theorem firstFault_object_eq_none_iff {members : List ReadMember} {fault : Option Fault} :
    (Reading.object members fault).firstFault = none ↔
      (∀ m ∈ members, m.value.firstFault = none) ∧ fault = none := by
  rw [firstFault, Option.or_eq_none_iff, faultOfMembers_eq_none_iff]

/-- One item of an array may be exchanged for one that is faultless just when it is. -/
theorem firstFault_item_iff {r r' : Reading} (h : r.firstFault = none ↔ r'.firstFault = none)
    (before after : List Reading) (fault : Option Fault) :
    (Reading.array (before ++ r :: after) fault).firstFault = none ↔
      (Reading.array (before ++ r' :: after) fault).firstFault = none := by
  simp only [firstFault_array_eq_none_iff, List.forall_mem_append, List.forall_mem_cons, h]

theorem firstFault_member_iff {r r' : Reading} (h : r.firstFault = none ↔ r'.firstFault = none)
    (key : String) (skipFault : Option Fault) (rest : List ReadMember) (fault : Option Fault) :
    (Reading.object (⟨key, r, skipFault⟩ :: rest) fault).firstFault = none ↔
      (Reading.object (⟨key, r', skipFault⟩ :: rest) fault).firstFault = none := by
  simp only [firstFault_object_eq_none_iff, List.forall_mem_cons, h]

/-- Two members of one object are the same if their keys are. -/
theorem eq_of_key_eq {members : List ReadMember} (h : (members.map (·.key)).Nodup)
    {m m' : ReadMember} (hm : m ∈ members) (hm' : m' ∈ members) (hkey : m.key = m'.key) :
    m = m' :=
  List.inj_on_of_nodup_map h hm hm' hkey

theorem ordered_valuesOfMembers (before : Members) (members : List ReadMember) :
    orderedMembers (valuesOfMembers before members) =
      members.foldl (fun placed m => Members.place m.key m.value.toValue.ordered placed)
        (orderedMembers before) := by
  induction members generalizing before with
  | nil => rfl
  | cons m rest ih =>
      cases m
      rw [valuesOfMembers, ih, orderedMembers_insert, List.foldl_cons]

namespace Rearranged

variable {r r' : Reading}

theorem firstFault_iff (h : Rearranged r r') : r.firstFault = none ↔ r'.firstFault = none := by
  induction h with
  | item _ ih => exact firstFault_item_iff ih _ _ _
  | members h =>
      rw [firstFault_object_eq_none_iff, firstFault_object_eq_none_iff]
      exact and_congr_left' (forall_congr' fun m => by rw [h.mem_iff])
  | member _ ih => exact firstFault_member_iff ih _ _ _ _

/-- The value is the same up to the order of members. -/
theorem ordered_toValue (h : Rearranged r r') (hkeys : r.KeysDistinct) :
    r.toValue.ordered = r'.toValue.ordered := by
  induction h with
  | item _ ih =>
      rw [keysDistinct_array, List.forall_mem_append, List.forall_mem_cons] at hkeys
      simp only [toValue, valuesOfItems_eq, Value.ordered, orderedItems_eq, List.map_append,
        List.map_cons, ih hkeys.2.1]
  | members h =>
      rw [keysDistinct_object] at hkeys
      rw [toValue, toValue, Value.ordered, Value.ordered, ordered_valuesOfMembers,
        ordered_valuesOfMembers]
      refine congrArg Value.object (h.foldl_eq' (fun m hm m' hm' placed => ?_) _)
      by_cases hkey : m.key = m'.key
      · rw [eq_of_key_eq hkeys.1 hm hm' hkey]
      · exact (Members.place_comm hkey _ _ _).symm
  | member _ ih =>
      rw [keysDistinct_object, List.forall_mem_cons] at hkeys
      rw [toValue, toValue, Value.ordered, Value.ordered, ordered_valuesOfMembers,
        ordered_valuesOfMembers, List.foldl_cons, List.foldl_cons, ih hkeys.2.1]

end Rearranged

end Reading

end Json

end CurlyTemplate
