import CurlyTemplate.Decode.Record

/-!
# Unions

A union is an object with the name of a variant under `type`, wherever that stands
among the members, or an array that begins with the name. The whole text is read
before the variant decodes the rest of it, so a fault anywhere inside comes before a
complaint about a field.
-/

namespace CurlyTemplate

namespace Decode

open Json (Fault Reading ReadMember)

structure Variant (α : Type) where
  name : String
  decode : Decoder α

def Variant.ofRecord {σ α : Type} (schema : Schema σ) (make : σ → α) : Variant α :=
  ⟨schema.name, fun manner r => (schema.decode manner r).map make⟩

/-- The member that names the variant. -/
def tagKey : String := "type"

variable {α : Type}

def readTag (variants : List (Variant α)) : Decoder (Variant α)
  | _, .string name =>
      match variants.find? (·.name == name) with
      | some variant => .ok variant
      | none => .error (.unknownVariant name (variants.map (·.name)))
  | .held, .number (.int n) =>
      if 0 ≤ n then
        match variants[n.toNat]? with
        | some variant => .ok variant
        | none => .error (.invalidValue (.integer n) (.variantIndex variants.length))
      else .error (wrongKind .variant (.number (.int n)))
  | _, r => .error (wrongKind .variant r)

/-- Looks through the members for the tag, and for faults in all others. -/
def findTag (variants : List (Variant α)) (manner : Manner) :
    Option (Variant α) → List ReadMember → Except Error (Option (Variant α))
  | tag, [] => .ok tag
  | tag, member :: rest =>
      if member.key == tagKey then
        match tag with
        | some _ => .error (.duplicateField tagKey)
        | none => do
            let variant ← readTag variants manner member.value
            findTag variants manner (some variant) rest
      else do
        sound member.value.firstFault
        findTag variants manner tag rest

def union (name : String) (variants : List (Variant α)) : Decoder α
  | manner, .object members fault => do
      let tag ← findTag variants manner none members
      sound fault
      match tag with
      | none => .error (.missingField tagKey)
      | some variant =>
          variant.decode .held (.object (members.filter (·.key != tagKey)) none)
  | _, .array [] fault => do
      sound fault
      .error (.missingField tagKey)
  | manner, .array (first :: rest) fault => do
      let variant ← readTag variants manner first
      sound (Reading.faultOfItems rest)
      sound fault
      variant.decode .held (.array rest none)
  | _, r => .error (wrongKind (.union name) r)

end Decode

end CurlyTemplate
