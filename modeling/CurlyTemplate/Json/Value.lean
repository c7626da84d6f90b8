/-!
# JSON values

A JSON value keeps the order of the members of its objects, and keeps integers
apart from doubles: a numeral without point and exponent that fits 64 bits is an
integer, every other one a double.
-/

namespace CurlyTemplate

namespace Json

inductive Number where
  | int (n : Int)
  | float (x : Float)
deriving Repr, BEq, DecidableEq, Inhabited

inductive Value where
  | null
  | bool (b : Bool)
  | number (n : Number)
  | string (s : String)
  | array (items : List Value)
  | object (members : List (String × Value))
deriving Repr, BEq, Inhabited

/-- The members of an object, in order. -/
abbrev Members := List (String × Value)

namespace Members

/-- Gives a key a value: a present key keeps its place, a new one goes to the end. -/
def insert (key : String) (value : Value) : Members → Members
  | [] => [(key, value)]
  | (k, v) :: rest => if k = key then (k, value) :: rest else (k, v) :: insert key value rest

/-- The value of the first member with a key. -/
def get? (key : String) : Members → Option Value
  | [] => none
  | (k, v) :: rest => if k = key then some v else get? key rest

@[simp] theorem get?_insert_self (key : String) (value : Value) (members : Members) :
    get? key (insert key value members) = some value := by
  induction members with
  | nil => simp [insert, get?]
  | cons m rest ih =>
      by_cases h : m.1 = key
      · simp [insert, get?, h]
      · simp [insert, get?, h, ih]

theorem get?_insert_of_ne {key other : String} (h : other ≠ key) (value : Value)
    (members : Members) : get? other (insert key value members) = get? other members := by
  induction members with
  | nil => simp [insert, get?, h.symm]
  | cons m rest ih =>
      by_cases hk : m.1 = key
      · have ho : key ≠ other := h.symm
        simp [insert, get?, hk, ho]
      · by_cases ho : m.1 = other
        · simp [insert, get?, ho, h]
        · simp [insert, get?, hk, ho, ih]

/-- A new key goes to the end. -/
theorem insert_of_get?_eq_none {key : String} {members : Members}
    (h : get? key members = none) (value : Value) :
    insert key value members = members ++ [(key, value)] := by
  induction members with
  | nil => rfl
  | cons m rest ih =>
      by_cases hk : m.1 = key
      · simp [get?, hk] at h
      · simp only [get?, hk, if_false] at h
        simp [insert, hk, ih h]

end Members

mutual

/-- The nesting of arrays and objects: none in a scalar, one in `[]`. -/
def Value.nesting : Value → Nat
  | .array items => nestingItems items + 1
  | .object members => nestingMembers members + 1
  | _ => 0

/-- The deepest nesting among the items of an array. -/
def nestingItems : List Value → Nat
  | [] => 0
  | v :: rest => max v.nesting (nestingItems rest)

/-- The deepest nesting among the members of an object. -/
def nestingMembers : List (String × Value) → Nat
  | [] => 0
  | (_, v) :: rest => max v.nesting (nestingMembers rest)

end

end Json

end CurlyTemplate
