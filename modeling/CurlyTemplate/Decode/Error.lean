import CurlyTemplate.Json.Fault
import CurlyTemplate.Json.Printer
import CurlyTemplate.Text.Visible

/-!
# Complaints of a decoder

Why a JSON text is not the wanted thing: it is no JSON, or it has another shape. The
wording names what was found and what was wanted.
-/

namespace CurlyTemplate

namespace Decode

/-- What was found. -/
inductive Found where
  | null
  | boolean (b : Bool)
  | integer (n : Int)
  | double (x : Float)
  | string (s : String)
  | sequence
  | map
deriving Repr

/-- What was wanted. -/
inductive Wanted where
  | string
  | boolean
  | sequence
  /-- A count or an index: a natural of 64 bits. -/
  | natural
  | double
  | record (name : String)
  | union (name : String)
  /-- The name of a variant of a union. -/
  | variant
  /-- The number of a variant among so many. -/
  | variantIndex (count : Nat)
deriving Repr, DecidableEq

inductive WantedLength where
  /-- As long as a record with so many fields. -/
  | record (name : String) (fields : Nat)
  /-- As long as the so many items that were used. -/
  | sequence (items : Nat)
deriving Repr, DecidableEq

inductive Error where
  | malformed (fault : Json.Fault)
  | missingField (name : String)
  | duplicateField (name : String)
  | unknownVariant (name : String) (known : List String)
  | invalidType (found : Found) (wanted : Wanted)
  | invalidValue (found : Found) (wanted : Wanted)
  | invalidLength (length : Nat) (wanted : WantedLength)
deriving Repr

def Found.message : Found → String
  | .null => "null"
  | .boolean b => s!"boolean `{b}`"
  | .integer n => s!"integer `{n}`"
  | .double x => s!"floating point `{String.ofList (Json.doubleText x)}`"
  | .string s => "string " ++ Text.quoteVisibly s
  | .sequence => "sequence"
  | .map => "map"

def Wanted.message : Wanted → String
  | .string => "a string"
  | .boolean => "a boolean"
  | .sequence => "a sequence"
  | .natural => "usize"
  | .double => "f64"
  | .record name => "struct " ++ name
  | .union name => "internally tagged enum " ++ name
  | .variant => "variant identifier"
  | .variantIndex count => s!"variant index 0 <= i < {count}"

/-- So many elements. -/
def elements (count : Nat) : String := if count = 1 then "1 element" else s!"{count} elements"

def WantedLength.message : WantedLength → String
  | .record name fields => s!"struct {name} with {elements fields}"
  | .sequence items => s!"{elements items} in sequence"

def oneOf : List String → String
  | [] => "there are no variants"
  | [a] => s!"expected `{a}`"
  | [a, b] => s!"expected `{a}` or `{b}`"
  | names => "expected one of " ++ ", ".intercalate (names.map fun name => s!"`{name}`")

def Error.message : Error → String
  | .malformed fault => fault.message
  | .missingField name => s!"missing field `{name}`"
  | .duplicateField name => s!"duplicate field `{name}`"
  | .unknownVariant name known => s!"unknown variant `{name}`, {oneOf known}"
  | .invalidType found wanted => s!"invalid type: {found.message}, expected {wanted.message}"
  | .invalidValue found wanted => s!"invalid value: {found.message}, expected {wanted.message}"
  | .invalidLength length wanted => s!"invalid length {length}, expected {wanted.message}"

end Decode

end CurlyTemplate
