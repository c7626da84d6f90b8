import CurlyTemplate.Json.Fault
import CurlyTemplate.Json.Value

/-!
# Readings of a JSON text

A `Reading` is a JSON text read as far as it goes. It is the tree of values with
the fault, if there is one, left standing at its place. Whoever goes through the
members of an object in order thus meets either a complaint of its own or the
fault, whichever comes first in the text, and one who has no use for a member may
pass over a fault inside it.
-/

namespace CurlyTemplate

namespace Json

mutual

/-- A text read as far as it goes. -/
inductive Reading where
  | null
  | bool (b : Bool)
  | number (n : Number)
  | string (s : String)
  /-- The items, and the fault that keeps the array from going on or being closed. -/
  | array (items : List Reading) (fault : Option Fault)
  /-- The members, and the fault that keeps the object from going on or being closed. -/
  | object (members : List ReadMember) (fault : Option Fault)
  | broken (fault : Fault)

/-- A member of an object as read. -/
structure ReadMember where
  key : String
  value : Reading
  /-- The fault met by one who passes over the value without reading it. -/
  skipFault : Option Fault

end

namespace Reading

mutual

/-- The first fault of a reading in the order of the text. -/
def firstFault : Reading → Option Fault
  | .array items fault => (faultOfItems items).or fault
  | .object members fault => (faultOfMembers members).or fault
  | .broken fault => some fault
  | _ => none

/-- The first fault among the items of an array. -/
def faultOfItems : List Reading → Option Fault
  | [] => none
  | r :: rest => r.firstFault.or (faultOfItems rest)

/-- The first fault among the members of an object. -/
def faultOfMembers : List ReadMember → Option Fault
  | [] => none
  | ⟨_, value, _⟩ :: rest => value.firstFault.or (faultOfMembers rest)

end

mutual

/-- The value that was read. A repeated key keeps its first place and its last value. -/
def toValue : Reading → Value
  | .null => .null
  | .bool b => .bool b
  | .number n => .number n
  | .string s => .string s
  | .array items _ => .array (valuesOfItems items)
  | .object members _ => .object (valuesOfMembers [] members)
  | .broken _ => .null

/-- The values of the items of an array. -/
def valuesOfItems : List Reading → List Value
  | [] => []
  | r :: rest => r.toValue :: valuesOfItems rest

/-- Adds the members of an object to those before them. -/
def valuesOfMembers (before : Members) : List ReadMember → Members
  | [] => before
  | ⟨key, value, _⟩ :: rest => valuesOfMembers (before.insert key value.toValue) rest

end

mutual

/-- The faultless reading of a value. -/
def ofValue : Value → Reading
  | .null => .null
  | .bool b => .bool b
  | .number n => .number n
  | .string s => .string s
  | .array items => .array (ofItems items) none
  | .object members => .object (ofMembers members) none

/-- The faultless readings of the items of an array. -/
def ofItems : List Value → List Reading
  | [] => []
  | v :: rest => ofValue v :: ofItems rest

/-- The faultless readings of the members of an object. -/
def ofMembers : List (String × Value) → List ReadMember
  | [] => []
  | (key, v) :: rest => ⟨key, ofValue v, none⟩ :: ofMembers rest

end

mutual

theorem firstFault_ofValue : (v : Value) → (ofValue v).firstFault = none
  | .null | .bool _ | .number _ | .string _ => by simp [ofValue, firstFault]
  | .array items => by simp [ofValue, firstFault, faultOfItems_ofItems items]
  | .object members => by simp [ofValue, firstFault, faultOfMembers_ofMembers members]

theorem faultOfItems_ofItems : (items : List Value) → faultOfItems (ofItems items) = none
  | [] => rfl
  | v :: rest => by
      simp [ofItems, faultOfItems, firstFault_ofValue v, faultOfItems_ofItems rest]

theorem faultOfMembers_ofMembers :
    (members : List (String × Value)) → faultOfMembers (ofMembers members) = none
  | [] => rfl
  | (_, v) :: rest => by
      simp [ofMembers, faultOfMembers, firstFault_ofValue v, faultOfMembers_ofMembers rest]

end

end Reading

end Json

end CurlyTemplate
