import CurlyTemplate.Decode.Error
import CurlyTemplate.Json.Reading

/-!
# Decoders

A decoder takes a reading to a value of another type, or complains. It goes through
the reading in the order of the text, so that of two complaints the first in the
text wins, be it about the shape or about the JSON itself.
-/

namespace CurlyTemplate

namespace Decode

open Json (Fault Reading)

/-- Whether a text is decoded as it comes in, or after it was read and held as a whole.
The two differ in what they say of an array that is too long, and only what is held
may name a variant by its number. -/
inductive Manner where
  | streamed
  | held
deriving Repr, DecidableEq

/-- A way to decode a reading. -/
abbrev Decoder (α : Type) := Manner → Reading → Except Error α

/-- The complaint about a reading of the wrong kind. -/
def wrongKind (wanted : Wanted) : Reading → Error
  | .null => .invalidType .null wanted
  | .bool b => .invalidType (.boolean b) wanted
  | .number (.int n) => .invalidType (.integer n) wanted
  | .number (.float x) => .invalidType (.double x) wanted
  | .string s => .invalidType (.string s) wanted
  | .array _ _ => .invalidType .sequence wanted
  | .object _ _ => .invalidType .map wanted
  | .broken fault => .malformed fault

/-- Fails if there is a fault. -/
def sound : Option Fault → Except Error Unit
  | none => .ok ()
  | some fault => .error (.malformed fault)

def string : Decoder String
  | _, .string s => .ok s
  | _, r => .error (wrongKind .string r)

def boolean : Decoder Bool
  | _, .bool b => .ok b
  | _, r => .error (wrongKind .boolean r)

def natural : Decoder Nat
  | _, .number (.int n) =>
      if 0 ≤ n then .ok n.toNat else .error (.invalidValue (.integer n) .natural)
  | _, r => .error (wrongKind .natural r)

/-- A double; an integer is rounded to one. -/
def double : Decoder Float
  | _, .number (.int n) => .ok (Float.ofInt n)
  | _, .number (.float x) => .ok x
  | _, r => .error (wrongKind .double r)

/-- A value, or `null` for none. -/
def optional {α : Type} (item : Decoder α) : Decoder (Option α)
  | _, .null => .ok none
  | manner, r => (item manner r).map some

def list {α : Type} (item : Decoder α) : Decoder (List α)
  | manner, .array items fault => do
      let values ← items.mapM (item manner)
      sound fault
      pure values
  | _, r => .error (wrongKind .sequence r)

end Decode

end CurlyTemplate
