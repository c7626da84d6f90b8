import CurlyTemplate.Proofs.Decode.Records

/-!
# Faults reach the result

A fault in a text is what decoding complains about, if everything before it is taken. A
record complains of a field with the complaint of that field, a list with that of an item,
and a union with the first fault anywhere inside.
-/

namespace CurlyTemplate

namespace Decode

open Json (Fault Value Members Reading ReadMember)

variable {α σ : Type}

/-- The members of a faultless object. -/
theorem firstFault_ofMember (m : String × Value) :
    (Reading.ofMember m).value.firstFault = none :=
  Reading.firstFault_ofValue m.2

theorem list_fault {item : Decoder α} {manner : Manner} {encode : α → Value} {xs : List α}
    (h : ∀ x ∈ xs, Takes item (encode x) x) {r : Reading} {error : Error}
    (hr : item manner r = .error error) (more : List Reading) (fault : Option Fault) :
    list item manner (.array (xs.map (fun x => .ofValue (encode x)) ++ r :: more) fault) =
      .error error := by
  have hitems : ∀ r ∈ xs.map (fun x => Reading.ofValue (encode x)), ∃ a, item manner r = .ok a := by
    rw [List.forall_mem_map]
    exact fun x hx => ⟨x, h x hx manner⟩
  rw [list, mapM_eq_error hitems hr, error_bind]

section Fields

variable {decode : Decoder α} {set : α → σ → σ} {manner : Manner} {r : Reading} {error : Error}

theorem requiredField_fault (h : decode manner r = .error error) (name : String) (s : σ) :
    (requiredField name decode set).read manner r s = .error error :=
  congrArg (Except.map fun a => set a s) h

theorem optionalField_fault (h : decode manner r = .error error) (name : String) (s : σ) :
    (optionalField name decode set).read manner r s = .error error :=
  congrArg (Except.map fun a => set a s) h

end Fields

namespace Schema

variable {schema : Schema σ} {manner : Manner}

/-- A record complains of a field behind fields that are filled. -/
theorem fields_fault (names : List String) (hnames : schema.names = names)
    (hdistinct : names.Nodup) {before after : List (FieldDecoder σ)} {field : FieldDecoder σ}
    (hfields : schema.fields = before ++ field :: after) {members : Members} {s : σ}
    (h : Filled before members schema.blank s) {r : Reading} {error : Error}
    (hr : field.read manner r s = .error error) (skipFault : Option Fault)
    (more : List ReadMember) (fault : Option Fault) :
    schema.decode manner
      (.object (members.map Reading.ofMember ++ ⟨field.name, r, skipFault⟩ :: more) fault) =
      .error error := by
  subst hnames
  have hbefore : (before.map (·.name) ++ field.name :: after.map (·.name)).Nodup := by
    have hdistinct' := hdistinct
    rw [names, hfields, List.map_append, List.map_cons] at hdistinct'
    exact hdistinct'
  obtain ⟨hfirst, -, hother⟩ := List.nodup_append.mp hbefore
  obtain ⟨seen, hread, -, -, hseen⟩ := exists_readMembers_filled manner h hdistinct
    (fun x hx => hfields ▸ List.mem_append_left _ hx) hfirst (fun _ _ => List.not_mem_nil)
    (⟨field.name, r, skipFault⟩ :: more)
  have hnew : field.name ∉ seen := fun hmem =>
    (hseen _ hmem).elim List.not_mem_nil fun hmem => hother _ hmem _ List.mem_cons_self rfl
  have hfield : field ∈ schema.fields := hfields ▸ List.mem_append_right _ List.mem_cons_self
  rw [decode, ofMembers, hread, readMembers_field hdistinct hfield hnew, hr]
  rfl

/-- A closed record complains of its first field, behind the name of its kind. -/
theorem tagged_fault (hclosed : schema.keep = none) (names : List String)
    (hnames : schema.names = names) (hdistinct : (tagKey :: names).Nodup)
    {fields : List (FieldDecoder σ)} {field : FieldDecoder σ}
    (hfields : schema.fields = field :: fields) {tag : Value} {r : Reading} {error : Error}
    (hr : field.read manner r schema.blank = .error error) (skipFault : Option Fault)
    (more : List ReadMember) (fault : Option Fault) :
    schema.decode manner
      (.object (Reading.ofMember (tagKey, tag) :: ⟨field.name, r, skipFault⟩ :: more) fault) =
      .error error := by
  subst hnames
  obtain ⟨htag, hdistinct⟩ := List.nodup_cons.mp hdistinct
  have hother : (Reading.ofMember (tagKey, tag)).key ∉ schema.names := htag
  have hfirst := fields_fault _ rfl hdistinct
    (show schema.fields = [] ++ field :: fields from hfields) (.nil _) hr skipFault more fault
  rw [decode, ofMembers] at hfirst ⊢
  rw [readMembers_other hother, takeOther, hclosed]
  exact hfirst

end Schema

theorem findTag_fault {variants : List (Variant α)} {manner : Manner} (tag : Option (Variant α))
    {members : Members} (h : ∀ m ∈ members, m.1 ≠ tagKey) {key : String} (hkey : key ≠ tagKey)
    {r : Reading} {fault : Fault} (hfault : r.firstFault = some fault) (skipFault : Option Fault)
    (more : List ReadMember) :
    findTag variants manner tag (members.map Reading.ofMember ++ ⟨key, r, skipFault⟩ :: more) =
      .error (.malformed fault) := by
  induction members with
  | nil =>
      have hkey : (key == tagKey) = false := by simpa using hkey
      cases tag <;>
      · rw [List.map_nil, List.nil_append, findTag, hkey, hfault]
        rfl
  | cons m rest ih =>
      rw [List.forall_mem_cons] at h
      have hkey : ((Reading.ofMember m).key == tagKey) = false := by
        simpa [Reading.ofMember] using h.1
      cases tag <;>
      · rw [List.map_cons, List.cons_append, findTag, hkey, firstFault_ofMember]
        exact ih h.2

/-- A union complains of the first fault behind the name of a variant. -/
theorem union_fault {name : String} {variants : List (Variant α)} {variant : Variant α}
    (hvariant : variants.find? (·.name == variant.name) = some variant) {members : Members}
    (hkeys : ∀ m ∈ members, m.1 ≠ tagKey) {key : String} (hkey : key ≠ tagKey) {r : Reading}
    {fault : Fault} (hfault : r.firstFault = some fault) (manner : Manner)
    (skipFault : Option Fault) (more : List ReadMember) (behind : Option Fault) :
    union name variants manner
      (.object (((tagKey, .string variant.name) :: members).map Reading.ofMember ++
        ⟨key, r, skipFault⟩ :: more) behind) = .error (.malformed fault) := by
  have hread : readTag variants manner (.string variant.name) = .ok variant := by
    simp only [readTag, hvariant]
  rw [union, List.map_cons, List.cons_append, findTag]
  simp only [Reading.ofMember, Reading.ofValue, beq_self_eq_true, if_true, hread, ok_bind]
  have hrest : findTag variants manner (some variant)
      (members.map Reading.ofMember ++ ⟨key, r, skipFault⟩ :: more) = .error (.malformed fault) :=
    findTag_fault _ hkeys hkey hfault skipFault more
  rw [hrest]
  rfl

end Decode

end CurlyTemplate
