import CurlyTemplate.Decode.Basic

/-!
# Records

A record is an object whose members are fields, in any order, or an array of its
fields in the order of their declaration. Fields that are not required keep the value
that the blank record has. A repeated field is a complaint; a member that is no field
is passed over, or kept when the record is open.
-/

namespace CurlyTemplate

namespace Decode

open Json (Fault Reading ReadMember Value)

/-- A field of a record: how its value enters the record. -/
structure FieldDecoder (σ : Type) where
  name : String
  required : Bool
  read : Manner → Reading → σ → Except Error σ

def requiredField {α σ : Type} (name : String) (decode : Decoder α) (set : α → σ → σ) :
    FieldDecoder σ :=
  ⟨name, true, fun manner r s => (decode manner r).map fun a => set a s⟩

def optionalField {α σ : Type} (name : String) (decode : Decoder α) (set : α → σ → σ) :
    FieldDecoder σ :=
  ⟨name, false, fun manner r s => (decode manner r).map fun a => set a s⟩

structure Schema (σ : Type) where
  name : String
  /-- The fields in the order of their declaration. -/
  fields : List (FieldDecoder σ)
  /-- The record before any field was read. -/
  blank : σ
  /-- How an open record keeps a member that is no field. -/
  keep : Option (String → Value → σ → σ)

namespace Schema

variable {σ : Type}

/-- Takes a member that is no field. -/
def takeOther (schema : Schema σ) (member : ReadMember) (s : σ) : Except Error σ :=
  match schema.keep with
  | some keep => .ok (keep member.key member.value.toValue s)
  | none => (sound member.skipFault).map fun _ => s

/-- Reads members in order. Returned with the record are the names of the fields read. -/
def readMembers (schema : Schema σ) (manner : Manner) :
    List String → List ReadMember → σ → Except Error (List String × σ)
  | seen, [], s => .ok (seen, s)
  | seen, member :: rest, s =>
      match schema.fields.find? (·.name == member.key) with
      | none => do
          let s ← schema.takeOther member s
          readMembers schema manner seen rest s
      | some field =>
          if seen.contains field.name then .error (.duplicateField field.name)
          else do
            let s ← field.read manner member.value s
            readMembers schema manner (field.name :: seen) rest s

/-- The first required field that was not read. -/
def missing? (schema : Schema σ) (seen : List String) : Option String :=
  (schema.fields.find? fun field => field.required && !seen.contains field.name).map (·.name)

/-- Reads a record from the members of an object. -/
def ofMembers (schema : Schema σ) (manner : Manner) (members : List ReadMember)
    (fault : Option Fault) : Except Error σ := do
  let (seen, s) ← schema.readMembers manner [] members schema.blank
  sound fault
  match schema.missing? seen with
  | some name => .error (.missingField name)
  | none => pure s

/-- The complaint about an array that goes on behind the last field. Where the text
is streamed, all but the bracket is trailing, with or without a comma before it. -/
def surplus (schema : Schema σ) (manner : Manner) (length : Nat) (left : List Reading)
    (fault : Option Fault) : Except Error Unit :=
  match manner, left, fault with
  | .held, _ :: _, _ => .error (.invalidLength length (.sequence schema.fields.length))
  | .streamed, _ :: _, _ => .error (.malformed .trailingCharacters)
  | _, [], some .trailingComma => .error (.malformed .trailingComma)
  | _, [], some .eofList => .error (.malformed .eofList)
  | _, [], some _ => .error (.malformed .trailingCharacters)
  | _, [], none => .ok ()

/-- Reads fields from items in order, the first of them being the field number `index`.
Returned with the record are the items behind the last field. -/
def readItems (schema : Schema σ) (manner : Manner) (fault : Option Fault) :
    Nat → List (FieldDecoder σ) → List Reading → σ → Except Error (List Reading × σ)
  | _, [], items, s => .ok (items, s)
  | index, field :: fields, [], s => do
      sound fault
      if field.required then
        .error (.invalidLength index (.record schema.name schema.fields.length))
      else readItems schema manner fault (index + 1) fields [] s
  | index, field :: fields, item :: items, s => do
      let s ← field.read manner item s
      readItems schema manner fault (index + 1) fields items s

/-- Reads a record from the items of an array. -/
def ofItems (schema : Schema σ) (manner : Manner) (items : List Reading)
    (fault : Option Fault) : Except Error σ := do
  let (left, s) ← schema.readItems manner fault 0 schema.fields items schema.blank
  schema.surplus manner items.length left fault
  pure s

/-- Decodes a record. An open record is no array. -/
def decode (schema : Schema σ) : Decoder σ
  | manner, .object members fault => schema.ofMembers manner members fault
  | manner, .array items fault =>
      match schema.keep with
      | some _ => .error (wrongKind (.record schema.name) (.array items fault))
      | none => schema.ofItems manner items fault
  | _, r => .error (wrongKind (.record schema.name) r)

end Schema

end Decode

end CurlyTemplate
