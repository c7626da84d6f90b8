import Mathlib.Data.List.Nodup
import CurlyTemplate.Json.Reading

/-!
# Values and their parts

A value holds values in two places: the items of an array and the members of an object.
`Value.induction` proves a property of all values from these places; what is asked of all
parts of a value is stated by membership. A value whose objects give no key twice is the
value of its own faultless reading (`toValue_ofValue`).
-/

namespace CurlyTemplate

namespace Json

/-- A property of all values follows for a value from the values right inside. -/
@[elab_as_elim]
theorem Value.induction {motive : Value → Prop} (null : motive .null)
    (bool : ∀ b, motive (.bool b)) (number : ∀ n, motive (.number n))
    (string : ∀ s, motive (.string s))
    (array : ∀ items, (∀ v ∈ items, motive v) → motive (.array items))
    (object : ∀ members : Members, (∀ m ∈ members, motive m.2) → motive (.object members))
    (v : Value) : motive v := by
  refine @Value.rec motive (fun items => ∀ v ∈ items, motive v)
    (fun members => ∀ m ∈ members, motive m.2) (fun m => motive m.2)
    null bool number string array object ?_ ?_ ?_ ?_ ?_ v
  · exact fun _ h => nomatch h
  · exact fun v rest hv hrest => List.forall_mem_cons.mpr ⟨hv, hrest⟩
  · exact fun _ h => nomatch h
  · exact fun m rest hm hrest => List.forall_mem_cons.mpr ⟨hm, hrest⟩
  · exact fun _ _ h => h

theorem nestingItems_le_iff {items : List Value} {n : Nat} :
    nestingItems items ≤ n ↔ ∀ v ∈ items, v.nesting ≤ n := by
  induction items with
  | nil => simp [nestingItems]
  | cons v rest ih => rw [nestingItems, Nat.max_le, ih, List.forall_mem_cons]

theorem nestingMembers_le_iff {members : Members} {n : Nat} :
    nestingMembers members ≤ n ↔ ∀ m ∈ members, m.2.nesting ≤ n := by
  induction members with
  | nil => simp [nestingMembers]
  | cons m rest ih => rw [nestingMembers, Nat.max_le, ih, List.forall_mem_cons]

theorem Value.nesting_lt_of_mem_array {items : List Value} {v : Value} (h : v ∈ items) :
    v.nesting < (Value.array items).nesting :=
  Nat.lt_succ_of_le (nestingItems_le_iff.mp (Nat.le_refl _) v h)

theorem Value.nesting_lt_of_mem_object {members : Members} (key : String) {v : Value}
    (h : (key, v) ∈ members) : v.nesting < (Value.object members).nesting :=
  Nat.lt_succ_of_le (nestingMembers_le_iff.mp (Nat.le_refl _) (key, v) h)

mutual

/-- The numbers in a value. -/
def Value.numbers : Value → List Number
  | .number n => [n]
  | .array items => numbersOfItems items
  | .object members => numbersOfMembers members
  | _ => []

/-- The numbers in the items of an array. -/
def numbersOfItems : List Value → List Number
  | [] => []
  | v :: rest => v.numbers ++ numbersOfItems rest

/-- The numbers in the members of an object. -/
def numbersOfMembers : List (String × Value) → List Number
  | [] => []
  | (_, v) :: rest => v.numbers ++ numbersOfMembers rest

end

@[simp] theorem numbersOfItems_eq (items : List Value) :
    numbersOfItems items = items.flatMap (·.numbers) := by
  induction items with
  | nil => rfl
  | cons v rest ih => rw [numbersOfItems, ih, List.flatMap_cons]

@[simp] theorem numbersOfMembers_eq (members : Members) :
    numbersOfMembers members = members.flatMap (·.2.numbers) := by
  induction members with
  | nil => rfl
  | cons m rest ih => rw [numbersOfMembers, ih, List.flatMap_cons]

mutual

/-- A value with other numbers. -/
def Value.mapNumbers (f : Number → Number) : Value → Value
  | .number n => .number (f n)
  | .array items => .array (mapNumbersOfItems f items)
  | .object members => .object (mapNumbersOfMembers f members)
  | v => v

def mapNumbersOfItems (f : Number → Number) : List Value → List Value
  | [] => []
  | v :: rest => v.mapNumbers f :: mapNumbersOfItems f rest

def mapNumbersOfMembers (f : Number → Number) : List (String × Value) → List (String × Value)
  | [] => []
  | (key, v) :: rest => (key, v.mapNumbers f) :: mapNumbersOfMembers f rest

end

@[simp] theorem mapNumbersOfItems_eq (f : Number → Number) (items : List Value) :
    mapNumbersOfItems f items = items.map (·.mapNumbers f) := by
  induction items with
  | nil => rfl
  | cons v rest ih => rw [mapNumbersOfItems, ih, List.map_cons]

@[simp] theorem mapNumbersOfMembers_eq (f : Number → Number) (members : Members) :
    mapNumbersOfMembers f members = members.map fun m => (m.1, m.2.mapNumbers f) := by
  induction members with
  | nil => rfl
  | cons m rest ih => rw [mapNumbersOfMembers, ih, List.map_cons]

theorem Value.mapNumbers_eq_self {f : Number → Number} (v : Value)
    (h : ∀ n ∈ v.numbers, f n = n) : v.mapNumbers f = v := by
  induction v using Value.induction with
  | null | bool | string => rfl
  | number n => rw [mapNumbers, h n (by simp [numbers])]
  | array items ih =>
      rw [mapNumbers, mapNumbersOfItems_eq]
      refine congrArg Value.array ((List.map_congr_left fun v hv => ?_).trans items.map_id)
      refine ih v hv fun n hn => h n ?_
      simpa [numbers] using ⟨v, hv, hn⟩
  | object members ih =>
      rw [mapNumbers, mapNumbersOfMembers_eq]
      refine congrArg Value.object ((List.map_congr_left fun m hm => ?_).trans members.map_id)
      refine Prod.ext rfl (ih m hm fun n hn => h n ?_)
      simpa [numbers] using ⟨m.1, m.2, hm, hn⟩

/-- The keys of members, in order. -/
abbrev Members.keys (members : Members) : List String := members.map (·.1)

mutual

/-- No object inside a value gives a key twice. -/
def Value.KeysDistinct : Value → Prop
  | .array items => KeysDistinctItems items
  | .object members => (Members.keys members).Nodup ∧ KeysDistinctMembers members
  | _ => True

def KeysDistinctItems : List Value → Prop
  | [] => True
  | v :: rest => v.KeysDistinct ∧ KeysDistinctItems rest

def KeysDistinctMembers : List (String × Value) → Prop
  | [] => True
  | (_, v) :: rest => v.KeysDistinct ∧ KeysDistinctMembers rest

end

theorem keysDistinctItems_iff {items : List Value} :
    KeysDistinctItems items ↔ ∀ v ∈ items, v.KeysDistinct := by
  induction items with
  | nil => simp [KeysDistinctItems]
  | cons v rest ih => rw [KeysDistinctItems, ih, List.forall_mem_cons]

theorem keysDistinctMembers_iff {members : Members} :
    KeysDistinctMembers members ↔ ∀ m ∈ members, m.2.KeysDistinct := by
  induction members with
  | nil => simp [KeysDistinctMembers]
  | cons m rest ih => rw [KeysDistinctMembers, ih, List.forall_mem_cons]

theorem Value.keysDistinct_array {items : List Value} :
    (Value.array items).KeysDistinct ↔ ∀ v ∈ items, v.KeysDistinct :=
  keysDistinctItems_iff

theorem Value.keysDistinct_object {members : Members} :
    (Value.object members).KeysDistinct ↔
      members.keys.Nodup ∧ ∀ m ∈ members, m.2.KeysDistinct := by
  rw [KeysDistinct, keysDistinctMembers_iff]

namespace Members

theorem get?_eq_none_iff {key : String} {members : Members} :
    get? key members = none ↔ key ∉ members.keys := by
  induction members with
  | nil => simp [get?]
  | cons m rest ih =>
      by_cases h : m.1 = key
      · simp [get?, h]
      · simp [get?, h, ih, Ne.symm h]

/-- A new key goes to the end. -/
theorem insert_of_not_mem {key : String} {members : Members} (h : key ∉ members.keys)
    (value : Value) : insert key value members = members ++ [(key, value)] :=
  insert_of_get?_eq_none (get?_eq_none_iff.mpr h) value

end Members

namespace Reading

@[simp] theorem ofItems_eq (items : List Value) : ofItems items = items.map ofValue := by
  induction items with
  | nil => rfl
  | cons v rest ih => rw [ofItems, ih, List.map_cons]

/-- A member that was read without a fault. -/
def ofMember (m : String × Value) : ReadMember := ⟨m.1, ofValue m.2, none⟩

@[simp] theorem ofMembers_eq (members : Members) : ofMembers members = members.map ofMember := by
  induction members with
  | nil => rfl
  | cons m rest ih => rw [ofMembers, ih, List.map_cons, ofMember]

@[simp] theorem valuesOfItems_eq (items : List Reading) :
    valuesOfItems items = items.map toValue := by
  induction items with
  | nil => rfl
  | cons r rest ih => rw [valuesOfItems, ih, List.map_cons]

/-- Members with keys of their own are added one behind the other. -/
theorem valuesOfMembers_ofMember {before members : Members}
    (hkeys : (before ++ members).keys.Nodup)
    (hvalues : ∀ m ∈ members, (ofValue m.2).toValue = m.2) :
    valuesOfMembers before (members.map ofMember) = before ++ members := by
  induction members generalizing before with
  | nil => simp [valuesOfMembers]
  | cons m rest ih =>
      rw [List.forall_mem_cons] at hvalues
      have hnew : m.1 ∉ before.keys := by
        intro hm
        rw [Members.keys, List.map_append] at hkeys
        exact (List.nodup_append.mp hkeys).2.2 m.1 hm m.1 List.mem_cons_self rfl
      rw [List.map_cons, ofMember, valuesOfMembers, hvalues.1, Members.insert_of_not_mem hnew,
        ih (by simpa using hkeys) hvalues.2, List.append_assoc, List.singleton_append]

theorem toValue_ofValue (v : Value) (h : v.KeysDistinct) : (ofValue v).toValue = v := by
  induction v using Value.induction with
  | null | bool | number | string => rfl
  | array items ih =>
      rw [Value.keysDistinct_array] at h
      rw [ofValue, toValue, valuesOfItems_eq, ofItems_eq, List.map_map]
      refine congrArg Value.array ((List.map_congr_left fun v hv => ?_).trans items.map_id)
      exact ih v hv (h v hv)
  | object members ih =>
      rw [Value.keysDistinct_object] at h
      rw [ofValue, toValue, ofMembers_eq]
      exact congrArg Value.object
        (valuesOfMembers_ofMember h.1 fun m hm => ih m hm (h.2 m hm))

end Reading

end Json

end CurlyTemplate
