import CurlyTemplate.Proofs.Json.Numerals
import CurlyTemplate.Proofs.Json.Values

/-!
# What holds of the numbers in a text

A property of the values of numerals holds of all numbers in the reading of a text
(`holds_readValue`), and so of those in the value that it is read as. The value of a
reading gives no key twice, whatever the text does.
-/

namespace CurlyTemplate

namespace Json

variable {P : Number → Prop}

/-- A property holds of every number in a value. -/
def Value.Holds (P : Number → Prop) (v : Value) : Prop := ∀ n ∈ v.numbers, P n

@[simp] theorem Value.holds_array {items : List Value} :
    (Value.array items).Holds P ↔ ∀ v ∈ items, v.Holds P := by
  simp only [Holds, numbers, numbersOfItems_eq, List.mem_flatMap]
  refine ⟨fun h v hv n hn => h n ⟨v, hv, hn⟩, ?_⟩
  rintro h n ⟨v, hv, hn⟩
  exact h v hv n hn

@[simp] theorem Value.holds_object {members : Members} :
    (Value.object members).Holds P ↔ ∀ m ∈ members, m.2.Holds P := by
  simp only [Holds, numbers, numbersOfMembers_eq, List.mem_flatMap]
  refine ⟨fun h m hm n hn => h n ⟨m, hm, hn⟩, ?_⟩
  rintro h n ⟨m, hm, hn⟩
  exact h m hm n hn

@[simp] theorem Value.holds_number {n : Number} : (Value.number n).Holds P ↔ P n := by
  simp [Holds, numbers]

@[simp] theorem Value.holds_null : Value.null.Holds P := nofun

@[simp] theorem Value.holds_bool (b : Bool) : (Value.bool b).Holds P := nofun

@[simp] theorem Value.holds_string (s : String) : (Value.string s).Holds P := nofun

mutual

/-- A property holds of every number in a reading. -/
def Reading.Holds (P : Number → Prop) : Reading → Prop
  | .number n => P n
  | .array items _ => HoldsItems P items
  | .object members _ => HoldsMembers P members
  | _ => True

def HoldsItems (P : Number → Prop) : List Reading → Prop
  | [] => True
  | r :: rest => r.Holds P ∧ HoldsItems P rest

def HoldsMembers (P : Number → Prop) : List ReadMember → Prop
  | [] => True
  | ⟨_, value, _⟩ :: rest => value.Holds P ∧ HoldsMembers P rest

end

namespace Reading

theorem holdsItems_iff {items : List Reading} : HoldsItems P items ↔ ∀ r ∈ items, r.Holds P := by
  induction items with
  | nil => simp [HoldsItems]
  | cons r rest ih => rw [HoldsItems, ih, List.forall_mem_cons]

theorem holdsMembers_iff {members : List ReadMember} :
    HoldsMembers P members ↔ ∀ m ∈ members, m.value.Holds P := by
  induction members with
  | nil => simp [HoldsMembers]
  | cons m rest ih =>
      cases m
      rw [HoldsMembers, ih, List.forall_mem_cons]

theorem holds_array {items : List Reading} {fault : Option Fault} :
    (Reading.array items fault).Holds P ↔ ∀ r ∈ items, r.Holds P :=
  holdsItems_iff

theorem holds_object {members : List ReadMember} {fault : Option Fault} :
    (Reading.object members fault).Holds P ↔ ∀ m ∈ members, m.value.Holds P :=
  holdsMembers_iff

/-! ### Values of readings -/

/-- A property of all readings follows for a reading from the readings right inside. -/
@[elab_as_elim]
theorem induction {motive : Reading → Prop} (null : motive .null) (bool : ∀ b, motive (.bool b))
    (number : ∀ n, motive (.number n)) (string : ∀ s, motive (.string s))
    (array : ∀ items fault, (∀ r ∈ items, motive r) → motive (.array items fault))
    (object : ∀ members fault, (∀ m ∈ members, motive m.value) → motive (.object members fault))
    (broken : ∀ fault, motive (.broken fault)) (r : Reading) : motive r := by
  refine @Reading.rec motive (fun m => motive m.value) (fun items => ∀ r ∈ items, motive r)
    (fun members => ∀ m ∈ members, motive m.value)
    null bool number string array object broken ?_ ?_ ?_ ?_ ?_ r
  · exact fun _ _ _ h => h
  · exact fun _ h => nomatch h
  · exact fun _ _ hr hrest => List.forall_mem_cons.mpr ⟨hr, hrest⟩
  · exact fun _ h => nomatch h
  · exact fun _ _ hm hrest => List.forall_mem_cons.mpr ⟨hm, hrest⟩

end Reading

theorem Members.keys_insert (key : String) (value : Value) (members : Members) :
    (members.insert key value).keys = members.keys ∨
      key ∉ members.keys ∧ (members.insert key value).keys = members.keys ++ [key] := by
  induction members with
  | nil => exact .inr ⟨List.not_mem_nil, rfl⟩
  | cons m rest ih =>
      by_cases hk : m.1 = key
      · exact .inl (by simp [insert, hk])
      · rcases ih with h | ⟨hnew, h⟩
        · exact .inl (by simpa [insert, hk] using h)
        · exact .inr ⟨by simpa [Ne.symm hk] using hnew, by simpa [insert, hk] using h⟩

theorem Members.nodup_keys_insert {members : Members} (h : members.keys.Nodup) (key : String)
    (value : Value) : (members.insert key value).keys.Nodup := by
  rcases keys_insert key value members with heq | ⟨hnew, heq⟩
  · rwa [heq]
  · rw [heq]
    exact List.nodup_append.mpr ⟨h, by simp, fun a ha b hb => by
      rw [List.mem_singleton.mp hb]
      exact fun hab => hnew (hab ▸ ha)⟩

/-- What is inserted or was there before. -/
theorem Members.mem_insert {members : Members} {key : String} {value : Value}
    {m : String × Value} (h : m ∈ members.insert key value) :
    m = (key, value) ∨ m ∈ members := by
  induction members with
  | nil => exact .inl (List.mem_singleton.mp h)
  | cons n rest ih =>
      by_cases hk : n.1 = key
      · rw [insert, if_pos hk] at h
        rcases List.mem_cons.mp h with rfl | h
        · exact .inl (by rw [hk])
        · exact .inr (List.mem_cons_of_mem _ h)
      · rw [insert, if_neg hk] at h
        rcases List.mem_cons.mp h with rfl | h
        · exact .inr List.mem_cons_self
        · exact (ih h).imp_right (List.mem_cons_of_mem _)

namespace Reading

theorem nodup_keys_valuesOfMembers (before : Members) (h : before.keys.Nodup)
    (members : List ReadMember) : (valuesOfMembers before members).keys.Nodup := by
  induction members generalizing before with
  | nil => exact h
  | cons m rest ih =>
      cases m
      exact ih _ (Members.nodup_keys_insert h _ _)

theorem mem_valuesOfMembers {before : Members} {members : List ReadMember} {m : String × Value}
    (h : m ∈ valuesOfMembers before members) :
    m ∈ before ∨ ∃ x ∈ members, m = (x.key, x.value.toValue) := by
  induction members generalizing before with
  | nil => exact .inl h
  | cons x rest ih =>
      obtain ⟨key, value, skipFault⟩ := x
      rcases ih h with h | ⟨x, hx, rfl⟩
      · rcases Members.mem_insert h with rfl | h
        · exact .inr ⟨_, List.mem_cons_self, rfl⟩
        · exact .inl h
      · exact .inr ⟨x, List.mem_cons_of_mem _ hx, rfl⟩

theorem keysDistinct_toValue (r : Reading) : r.toValue.KeysDistinct := by
  induction r using Reading.induction with
  | null | bool | number | string | broken => exact trivial
  | array items fault ih =>
      rw [toValue, valuesOfItems_eq, Value.keysDistinct_array]
      exact List.forall_mem_map.mpr ih
  | object members fault ih =>
      rw [toValue, Value.keysDistinct_object]
      refine ⟨nodup_keys_valuesOfMembers [] List.nodup_nil members, fun m hm => ?_⟩
      rcases mem_valuesOfMembers hm with hm | ⟨x, hx, rfl⟩
      · cases hm
      · exact ih x hx

theorem holds_toValue (r : Reading) (h : r.Holds P) : r.toValue.Holds P := by
  induction r using Reading.induction with
  | null | bool | string | broken => exact nofun
  | number n => exact Value.holds_number.mpr h
  | array items fault ih =>
      rw [holds_array] at h
      rw [toValue, valuesOfItems_eq, Value.holds_array]
      exact List.forall_mem_map.mpr fun r hr => ih r hr (h r hr)
  | object members fault ih =>
      rw [holds_object] at h
      rw [toValue, Value.holds_object]
      intro m hm
      rcases mem_valuesOfMembers hm with hm | ⟨x, hx, rfl⟩
      · cases hm
      · exact ih x hx (h x hx)

end Reading

/-! ### Readings of texts -/

section Texts

variable {item : List Char → ReadResult}

theorem holds_readItems (h : ∀ text, (item text).1.Holds P) (fuel : Nat) (text : List Char) :
    ∀ r ∈ (readItems item fuel text).1, r.Holds P := by
  induction fuel generalizing text with
  | zero => exact fun _ h => nomatch h
  | succ fuel ih =>
      have hfirst := h text
      have hone : ∀ r ∈ [(item text).1], r.Holds P := List.forall_mem_singleton.mpr hfirst
      rw [readItems]
      generalize item text = result at hfirst hone
      obtain ⟨r, left⟩ := result
      cases left with
      | none => exact hone
      | some rest =>
          simp only
          split
          · exact hone
          · exact hone
          · split
            · exact hone
            · exact hone
            · exact List.forall_mem_cons.mpr ⟨hfirst, ih _⟩
          · exact hone

theorem holds_readMembers (h : ∀ text, (item text).1.Holds P) (size fuel : Nat)
    (text : List Char) : ∀ m ∈ (readMembers size item fuel text).1, m.value.Holds P := by
  induction fuel generalizing text with
  | zero => exact fun _ h => nomatch h
  | succ fuel ih =>
      rw [readMembers]
      split
      · exact fun _ h => nomatch h
      next key text hkey =>
        split
        · exact List.forall_mem_singleton.mpr trivial
        next text hcolon =>
          have hone (skipFault : Option Fault) :
              ∀ m ∈ [(⟨key, (item text).1, skipFault⟩ : ReadMember)], m.value.Holds P :=
            List.forall_mem_singleton.mpr (h text)
          simp only
          split
          · exact hone _
          · split
            · exact hone _
            · exact hone _
            · split
              · exact hone _
              · exact List.forall_mem_cons.mpr ⟨h text, ih _⟩
            · exact hone _

theorem holds_scalar {α : Type} {result : Except Fault α} {make : α → Reading × List Char}
    (h : ∀ a, result = .ok a → (make a).1.Holds P) : (scalar (result.map make)).1.Holds P := by
  cases result with
  | error fault => exact trivial
  | ok a => exact h a rfl

/-- What holds of the values of numerals holds of every number in the reading of a text. -/
theorem holds_readValue (h : ∀ (numeral : Numeral) n, numeral.value? = some n → P n)
    (size levels : Nat) (text : List Char) : (readValue size levels text).1.Holds P := by
  induction levels using Nat.strongRecOn generalizing text with
  | ind levels ih =>
      unfold readValue
      split
      · exact trivial
      next rest =>
        split
        · exact Reading.holds_array.mpr nofun
        next levels =>
          split
          · exact Reading.holds_array.mpr nofun
          · exact Reading.holds_array.mpr nofun
          · exact Reading.holds_array.mpr (holds_readItems (ih levels (Nat.lt_succ_self _)) _ _)
      next rest =>
        split
        · exact Reading.holds_object.mpr nofun
        next levels =>
          split
          · exact Reading.holds_object.mpr nofun
          · exact Reading.holds_object.mpr nofun
          · exact Reading.holds_object.mpr
              (holds_readMembers (ih levels (Nat.lt_succ_self _)) _ _ _)
      · exact holds_scalar fun _ _ => trivial
      · exact holds_scalar fun _ _ => trivial
      · exact holds_scalar fun _ _ => trivial
      · exact holds_scalar fun _ _ => trivial
      · split
        · refine holds_scalar fun p hread => ?_
          obtain ⟨numeral, -, hvalue⟩ := Numeral.read_eq_ok_iff.mp hread
          exact h numeral p.1 hvalue
        · exact trivial

/-- Whatever is found behind a text, its reading has numbers of numerals only. -/
theorem holds_ofText (h : ∀ (numeral : Numeral) n, numeral.value? = some n → P n) (levels : Nat)
    (text : String) : (Reading.ofText levels text).1.Holds P := by
  have hread := holds_readValue h text.length levels text.toList
  rw [Reading.ofText]
  split
  next heq => rwa [heq] at hread
  next heq => rwa [heq] at hread

end Texts

end Json

end CurlyTemplate
