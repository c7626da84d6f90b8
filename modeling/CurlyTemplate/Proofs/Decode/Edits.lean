import Mathlib.Logic.Relation
import CurlyTemplate.Decode.Union
import CurlyTemplate.Proofs.Json.Order

/-!
# Edits that say nothing

A grammar tells of each kind of node what its fields hold, what stands for a field that is
missing, and whether the node keeps members that are no fields. Along a grammar a reading is
edited in places that matter to no decoder: members change their order, a field is left out
that has what stands for it, a member comes or goes that nobody asks for (`Edit`).
-/

namespace CurlyTemplate

namespace Decode

open Json (Fault Reading ReadMember Value)

/-- What a place in a text holds. -/
inductive Shape (K : Type) where
  | scalar
  | node (kind : K)
  /-- A node of one of several kinds, which it names under `type`. -/
  | variant (kinds : List K)
  | list (item : Shape K)

/-- A field of a kind of node. -/
structure FieldForm (K : Type) where
  name : String
  /-- What stands for the field, if it may be missing. -/
  default : Option Value
  shape : Shape K

/-- The kinds of nodes in a text. -/
structure Grammar (K : Type) where
  name : K → String
  fields : K → List (FieldForm K)
  /-- Whether members that are no fields are kept. -/
  isOpen : K → Bool

variable {K : Type}

def Grammar.fieldNames (G : Grammar K) (kind : K) : List String := (G.fields kind).map (·.name)

/-- One edit, at one place inside a reading that has a shape. Nothing but the order of members
may change where the shape is not met. -/
inductive Edit (G : Grammar K) : Shape K → Reading → Reading → Prop where
  | rearrange {shape : Shape K} {r r' : Reading} (h : r.Rearranged r') : Edit G shape r r'
  | item {shape : Shape K} {before after : List Reading} {r r' : Reading} {fault : Option Fault}
      (h : Edit G shape r r') :
      Edit G (.list shape) (.array (before ++ r :: after) fault)
        (.array (before ++ r' :: after) fault)
  /-- A field is added with what stands for it anyway. -/
  | fill {kind : K} {field : FieldForm K} {value : Value} {members : List ReadMember}
      {fault : Option Fault} (hfield : field ∈ G.fields kind)
      (hdefault : field.default = some value) :
      Edit G (.node kind) (.object members fault)
        (.object (Reading.ofMember (field.name, value) :: members) fault)
  /-- A member is added that is no field, to a node that keeps no such members. -/
  | ignore {kind : K} {member : ReadMember} {members : List ReadMember} {fault : Option Fault}
      (hclosed : G.isOpen kind = false) (hother : member.key ∉ G.fieldNames kind)
      (hvalue : member.value.firstFault = none) (hskip : member.skipFault = none) :
      Edit G (.node kind) (.object members fault) (.object (member :: members) fault)
  | field {kind : K} {field : FieldForm K} {r r' : Reading} {skipFault : Option Fault}
      {members : List ReadMember} {fault : Option Fault} (hfield : field ∈ G.fields kind)
      (h : Edit G field.shape r r') :
      Edit G (.node kind) (.object (⟨field.name, r, skipFault⟩ :: members) fault)
        (.object (⟨field.name, r', skipFault⟩ :: members) fault)
  /-- A node that names its kind, or has the number of its kind, is edited as a node of that
  kind. -/
  | variant {kinds : List K} {index : Nat} {kind : K} {tag : Reading} {skipFault : Option Fault}
      {members members' : List ReadMember} {fault : Option Fault}
      (hkind : kinds[index]? = some kind)
      (htag : tag = .string (G.name kind) ∨ tag = .number (.int index))
      (h : Edit G (.node kind) (.object members fault) (.object members' fault)) :
      Edit G (.variant kinds) (.object (⟨tagKey, tag, skipFault⟩ :: members) fault)
        (.object (⟨tagKey, tag, skipFault⟩ :: members') fault)

/-- One edit between readings that give no key twice in an object. -/
def Edited (G : Grammar K) (shape : Shape K) (r r' : Reading) : Prop :=
  r.KeysDistinct ∧ r'.KeysDistinct ∧ Edit G shape r r'

namespace Edit

variable {G : Grammar K} {shape : Shape K} {r r' : Reading}

/-- There is a fault in the one reading just when there is one in the other. -/
theorem firstFault_iff (h : Edit G shape r r') : r.firstFault = none ↔ r'.firstFault = none := by
  induction h with
  | rearrange h => exact h.firstFault_iff
  | item _ ih => exact Reading.firstFault_item_iff ih _ _ _
  | fill =>
      rw [Reading.firstFault_object_eq_none_iff, Reading.firstFault_object_eq_none_iff,
        List.forall_mem_cons]
      simp only [Reading.ofMember, Reading.firstFault_ofValue, true_and]
  | ignore _ _ hvalue _ =>
      rw [Reading.firstFault_object_eq_none_iff, Reading.firstFault_object_eq_none_iff,
        List.forall_mem_cons]
      simp only [hvalue, true_and]
  | field _ _ ih => exact Reading.firstFault_member_iff ih _ _ _ _
  | variant _ _ _ ih =>
      rw [Reading.firstFault_object_eq_none_iff, Reading.firstFault_object_eq_none_iff] at ih ⊢
      rw [List.forall_mem_cons, List.forall_mem_cons, and_assoc, and_assoc, ih]

/-- Arrays and objects alone are edited. -/
theorem structured (h : Edit G shape r r') :
    (∃ items fault items' fault', r = .array items fault ∧ r' = .array items' fault') ∨
      ∃ members fault members' fault',
        r = .object members fault ∧ r' = .object members' fault' := by
  cases h with
  | rearrange h =>
      cases h with
      | item => exact .inl ⟨_, _, _, _, rfl, rfl⟩
      | members | member => exact .inr ⟨_, _, _, _, rfl, rfl⟩
  | item => exact .inl ⟨_, _, _, _, rfl, rfl⟩
  | fill | ignore | field | variant => exact .inr ⟨_, _, _, _, rfl, rfl⟩

end Edit

end Decode

end CurlyTemplate
