import CurlyTemplate.Proofs.Json.Numerals
import CurlyTemplate.Proofs.Json.Spacing
import CurlyTemplate.Proofs.Json.Strings
import CurlyTemplate.Proofs.Json.Values

/-!
# Values read back

A value is read back from its text, in whatever spacing that is laid out, when each of its
numbers is read from its numeral and it nests no deeper than the reader goes
(`readValue_spaced`). A value that nests deeper is read up to the bracket that goes too
deep, and that is its first fault (`firstFault_readValue_of_deep`).
-/

namespace CurlyTemplate

namespace Json

variable {g : Spacing} {f : Number → Number} {size level levels : Nat}

/-- Each number of a value is read from its numeral, as the number that `f` makes of it. -/
def Value.ReadsAs (f : Number → Number) (v : Value) : Prop :=
  ∀ n ∈ v.numbers, Numeral.read n.text = .ok (f n, [])

theorem Value.readsAs_array {items : List Value} :
    (Value.array items).ReadsAs f ↔ ∀ v ∈ items, v.ReadsAs f := by
  simp only [ReadsAs, numbers, numbersOfItems_eq, List.mem_flatMap]
  refine ⟨fun h v hv n hn => h n ⟨v, hv, hn⟩, ?_⟩
  rintro h n ⟨v, hv, hn⟩
  exact h v hv n hn

theorem Value.readsAs_object {members : Members} :
    (Value.object members).ReadsAs f ↔ ∀ m ∈ members, m.2.ReadsAs f := by
  simp only [ReadsAs, numbers, numbersOfMembers_eq, List.mem_flatMap]
  refine ⟨fun h m hm n hn => h n ⟨m, hm, hn⟩, ?_⟩
  rintro h n ⟨m, hm, hn⟩
  exact h m hm n hn

theorem endsNumeral_of_isSpace {c : Char} (h : isSpace c = true) (rest : List Char) :
    EndsNumeral (c :: rest) := by
  rintro _ ⟨rfl⟩
  simp only [isSpace, Bool.or_eq_true, beq_iff_eq] at h
  rcases h with ((rfl | rfl) | rfl) | rfl <;> decide

theorem Spacing.endsNumeral_gap (g : Spacing) (level : Nat) {rest : List Char}
    (h : EndsNumeral rest) : EndsNumeral (g.gap level ++ rest) := by
  cases hgap : g.gap level with
  | nil => exact h
  | cons c gap =>
      exact endsNumeral_of_isSpace (g.isSpace_of_mem_gap level c (hgap ▸ List.mem_cons_self)) _

theorem endsNumeral_nil : EndsNumeral [] := nofun

theorem endsNumeral_spacedItems (items : List Value) (tail : List Char) :
    EndsNumeral (spacedItems g level items ++ tail) := by
  cases items with
  | nil =>
      rw [spacedItems, List.append_assoc]
      refine g.endsNumeral_gap level ?_
      rintro _ ⟨rfl⟩
      decide
  | cons v rest =>
      rintro _ ⟨rfl⟩
      decide

theorem endsNumeral_spacedMembers (members : Members) (tail : List Char) :
    EndsNumeral (spacedMembers g level members ++ tail) := by
  cases members with
  | nil =>
      rw [spacedMembers, List.append_assoc]
      refine g.endsNumeral_gap level ?_
      rintro _ ⟨rfl⟩
      decide
  | cons m rest =>
      rintro _ ⟨rfl⟩
      decide

/-- A text in front of which a value is looked for: it has no space in front and is not
the end of an array. -/
def StartsValue (text : List Char) : Prop :=
  ∃ c rest, text = c :: rest ∧ isSpace c = false ∧ c ≠ ']'

theorem StartsValue.append {text : List Char} (h : StartsValue text) (rest : List Char) :
    StartsValue (text ++ rest) := by
  obtain ⟨c, text, rfl, hspace, hclose⟩ := h
  exact ⟨c, text ++ rest, rfl, hspace, hclose⟩

theorem StartsValue.skipSpace {text : List Char} (h : StartsValue text) :
    skipSpace text = text := by
  obtain ⟨c, text, rfl, hspace, -⟩ := h
  exact skipSpace_cons hspace text

theorem Numeral.exists_cons_of_read {text left : List Char} {n : Number}
    (h : read text = .ok (n, left)) :
    ∃ c rest, text = c :: rest ∧ (c = '-' ∨ c.isDigit = true) := by
  obtain ⟨numeral, hscan, -⟩ := read_eq_ok_iff.mp h
  obtain ⟨-, left₁, left₂, hwhole, -⟩ := scan_eq_ok_iff.mp hscan
  obtain ⟨htake, hne⟩ := digits1_eq_ok_iff.mp (scanWhole_eq_ok_iff.mp hwhole).1
  cases text with
  | nil => cases hwhole
  | cons c rest =>
      refine ⟨c, rest, rfl, ?_⟩
      by_cases hc : c = '-'
      · exact .inl hc
      · rw [unsigned_cons hc] at htake
        cases hdigit : c.isDigit with
        | true => exact .inr rfl
        | false =>
            simp only [takeDigits, digit?, hdigit] at htake
            exact absurd (congrArg Prod.fst htake).symm hne

theorem isSpace_of_numeral {c : Char} (h : c = '-' ∨ c.isDigit = true) :
    isSpace c = false ∧ c ≠ ']' ∧ c ≠ '[' ∧ c ≠ '\x7b' ∧ c ≠ '"' ∧ c ≠ 'n' ∧ c ≠ 't' ∧ c ≠ 'f' := by
  rcases h with rfl | h
  · decide
  · have hne (d : Char) (hd : d.isDigit = false) : c ≠ d := by
      rintro rfl
      cases h.symm.trans hd
    simp only [isSpace, Bool.or_eq_false_iff, beq_eq_false_iff_ne]
    exact ⟨⟨⟨⟨hne _ rfl, hne _ rfl⟩, hne _ rfl⟩, hne _ rfl⟩, hne _ rfl, hne _ rfl, hne _ rfl,
      hne _ rfl, hne _ rfl, hne _ rfl, hne _ rfl⟩

theorem startsValue_spaced {v : Value} (h : v.ReadsAs f) : StartsValue (v.spaced g level) := by
  cases v with
  | null => exact ⟨_, _, rfl, rfl, by decide⟩
  | bool b => cases b <;> exact ⟨_, _, rfl, rfl, by decide⟩
  | number n =>
      obtain ⟨c, rest, htext, hc⟩ :=
        Numeral.exists_cons_of_read (h n (by simp [Value.numbers]))
      exact ⟨c, rest, htext, (isSpace_of_numeral hc).1, (isSpace_of_numeral hc).2.1⟩
  | string s => exact ⟨_, _, rfl, rfl, by decide⟩
  | array items => cases items <;> exact ⟨_, _, rfl, rfl, by decide⟩
  | object members => cases members <;> exact ⟨_, _, rfl, rfl, by decide⟩

/-! ### Scalars -/

theorem readValue_number {text rest : List Char} {n : Number}
    (h : Numeral.read text = .ok (n, [])) (hrest : EndsNumeral rest) :
    readValue size levels (text ++ rest) = (.number n, some rest) := by
  have hread := Numeral.read_append hrest h
  obtain ⟨c, text, rfl, hc⟩ := Numeral.exists_cons_of_read h
  obtain ⟨hspace, -, hlist, hobject, hquote, hn, ht, hf⟩ := isSpace_of_numeral hc
  rw [List.cons_append] at hread ⊢
  unfold readValue
  rw [skipSpace_cons hspace]
  split
  next heq => cases heq
  next heq => exact absurd (List.cons.inj heq).1 hlist
  next heq => exact absurd (List.cons.inj heq).1 hobject
  next heq => exact absurd (List.cons.inj heq).1 hquote
  next heq => exact absurd (List.cons.inj heq).1 hn
  next heq => exact absurd (List.cons.inj heq).1 ht
  next heq => exact absurd (List.cons.inj heq).1 hf
  next heq =>
    obtain ⟨rfl, rfl⟩ := List.cons.inj heq
    rw [if_pos hc, hread]
    rfl

theorem readString_quote (s : String) (rest : List Char) :
    readString true [] (s.toList.flatMap escape ++ ['"'] ++ rest) = .ok (s.toList, rest) := by
  rw [List.append_assoc, List.singleton_append, readString_quoted, List.reverse_nil,
    List.nil_append]

theorem readValue_quote (s : String) (rest : List Char) :
    readValue size levels (quote s ++ rest) = (.string s, some rest) := by
  rw [quote, List.cons_append]
  unfold readValue
  rw [skipSpace_cons rfl]
  simp only [readString_quote, Except.map, scalar, String.ofList_toList]

theorem readKey_quote (s : String) (rest : List Char) :
    readKey (quote s ++ rest) = .ok (s, rest) := by
  rw [quote, List.cons_append, readKey, readString_quote]
  simp only [Except.map, String.ofList_toList]

theorem readValue_skipSpace {text text' : List Char} (h : skipSpace text = skipSpace text') :
    readValue size levels text = readValue size levels text' := by
  unfold readValue
  rw [h]

/-! ### Items -/

section Items

/-- The items of an array up to its closing bracket. -/
def itemsText (g : Spacing) (level : Nat) : List Value → List Char
  | [] => []
  | v :: rest => v.spaced g (level + 1) ++ spacedItems g level rest

variable {item : List Char → ReadResult} {read : Value → Reading} {fuel : Nat}

theorem readItems_last {w : Value} {tail : List Char}
    (h : ∀ rest, EndsNumeral rest → item (w.spaced g (level + 1) ++ rest) = (read w, some rest)) :
    readItems item (fuel + 1) (itemsText g level [w] ++ tail) = ([read w], none, some tail) := by
  have hspace : skipSpace (spacedItems g level [] ++ tail) = ']' :: tail := by
    rw [spacedItems, List.append_assoc, g.skipSpace_gap]
    rfl
  rw [itemsText, List.append_assoc, readItems, h _ (endsNumeral_spacedItems [] tail)]
  simp only [hspace]

theorem readItems_cons {v w : Value} {rest : List Value} {tail : List Char}
    (hv : ∀ rest, EndsNumeral rest → item (v.spaced g (level + 1) ++ rest) = (read v, some rest))
    (hw : StartsValue (w.spaced g (level + 1))) :
    readItems item (fuel + 1) (itemsText g level (v :: w :: rest) ++ tail) =
      let more := readItems item fuel (itemsText g level (w :: rest) ++ tail)
      (read v :: more.1, more.2) := by
  have hspace : skipSpace (spacedItems g level (w :: rest) ++ tail) =
      ',' :: (g.gap (level + 1) ++ (itemsText g level (w :: rest) ++ tail)) := by
    rw [spacedItems, List.cons_append, skipSpace_cons rfl, itemsText]
    simp only [List.append_assoc]
  have hstarts : StartsValue (itemsText g level (w :: rest) ++ tail) := by
    rw [itemsText, List.append_assoc]
    exact hw.append _
  rw [itemsText, List.append_assoc, readItems, hv _ (endsNumeral_spacedItems (w :: rest) tail)]
  simp only [hspace, g.skipSpace_gap, hstarts.skipSpace]
  obtain ⟨c, text, htext, -, hclose⟩ := hstarts
  rw [htext]
  split
  next heq => cases heq
  next heq => exact absurd (List.cons.inj heq).1 hclose
  next => rfl

/-- Items that are read whole come before what is read of the rest. -/
theorem readItems_append (fuel : Nat) {before : List Value} {w : Value} (rest : List Value)
    (tail : List Char) (h : ∀ v ∈ before, StartsValue (v.spaced g (level + 1)) ∧
      ∀ rest, EndsNumeral rest → item (v.spaced g (level + 1) ++ rest) = (read v, some rest))
    (hw : StartsValue (w.spaced g (level + 1))) :
    readItems item (before.length + fuel) (itemsText g level (before ++ w :: rest) ++ tail) =
      let more := readItems item fuel (itemsText g level (w :: rest) ++ tail)
      (before.map read ++ more.1, more.2) := by
  induction before with
  | nil => simp
  | cons v before ih =>
      rw [List.forall_mem_cons] at h
      have hstep : readItems item (before.length + fuel + 1)
          (itemsText g level (v :: (before ++ w :: rest)) ++ tail) =
          let more := readItems item (before.length + fuel)
            (itemsText g level (before ++ w :: rest) ++ tail)
          (read v :: more.1, more.2) := by
        cases before with
        | nil => exact readItems_cons h.1.2 hw
        | cons x before => exact readItems_cons h.1.2 (h.2 x List.mem_cons_self).1
      rw [List.length_cons, Nat.add_right_comm, List.cons_append, hstep, ih h.2]
      rfl

/-- What the first item reads as stands first among the items. -/
theorem exists_readItems_eq (item : List Char → ReadResult) (fuel : Nat) (text : List Char) :
    ∃ more rest, readItems item (fuel + 1) text = ((item text).1 :: more, rest) := by
  rw [readItems]
  split
  next h => exact ⟨[], _, by rw [h]⟩
  next h =>
    rw [h]
    split
    · exact ⟨[], _, rfl⟩
    · exact ⟨[], _, rfl⟩
    · split
      · exact ⟨[], _, rfl⟩
      · exact ⟨[], _, rfl⟩
      · exact ⟨_, _, rfl⟩
    · exact ⟨[], _, rfl⟩

theorem readItems_spaced {items : List Value} (hne : items ≠ []) {tail : List Char}
    (h : ∀ v ∈ items, StartsValue (v.spaced g (level + 1)) ∧
      ∀ rest, EndsNumeral rest → item (v.spaced g (level + 1) ++ rest) = (read v, some rest))
    (hfuel : items.length ≤ fuel) :
    readItems item fuel (itemsText g level items ++ tail) =
      (items.map read, none, some tail) := by
  obtain ⟨before, w, rfl⟩ := List.eq_nil_or_concat' items |>.resolve_left hne
  obtain ⟨spare, rfl⟩ := Nat.exists_eq_add_of_le hfuel
  have hw := h w (by simp)
  rw [List.length_append, List.length_singleton, Nat.add_assoc, Nat.add_comm 1,
    readItems_append _ _ _ (fun v hv => h v (List.mem_append_left _ hv)) hw.1, readItems_last hw.2,
    List.map_append]
  rfl

end Items

/-! ### Members -/

section Members

/-- The members of an object up to its closing brace. -/
def membersText (g : Spacing) (level : Nat) : Members → List Char
  | [] => []
  | (k, v) :: rest =>
      quote k ++ ':' :: (g.colon ++ (v.spaced g (level + 1) ++ spacedMembers g level rest))

variable {item : List Char → ReadResult} {read : Value → Reading} {fuel : Nat}

/-- The value of a member is read whole, with the space in front of it. -/
def ReadsMember (g : Spacing) (level : Nat) (item : List Char → ReadResult)
    (read : Value → Reading) (m : String × Value) : Prop :=
  ∀ rest, EndsNumeral rest →
    item (g.colon ++ (m.2.spaced g (level + 1) ++ rest)) = (read m.2, some rest)

theorem membersText_cons (m : String × Value) (rest : Members) (tail : List Char) :
    membersText g level (m :: rest) ++ tail =
      quote m.1 ++ ':' :: (g.colon ++ (m.2.spaced g (level + 1) ++
        (spacedMembers g level rest ++ tail))) := by
  rw [membersText]
  simp only [List.append_assoc, List.cons_append]

theorem exists_membersText_eq (g : Spacing) (level : Nat) (m : String × Value) (rest : Members) (tail : List Char) :
    ∃ text, membersText g level (m :: rest) ++ tail = '"' :: text := by
  rw [membersText_cons, quote, List.cons_append]
  exact ⟨_, rfl⟩

theorem readColon_colon (text : List Char) : readColon (':' :: text) = .ok text := by
  rw [readColon, skipSpace_cons rfl]
  rfl

theorem readMembers_last {m : String × Value} {tail : List Char}
    (h : ReadsMember g level item read m) :
    readMembers size item (fuel + 1) (membersText g level [m] ++ tail) =
      ([⟨m.1, read m.2, none⟩], none, some tail) := by
  have hspace : skipSpace (spacedMembers g level [] ++ tail) = '\x7d' :: tail := by
    rw [spacedMembers, List.append_assoc, g.skipSpace_gap]
    rfl
  rw [membersText_cons, readMembers, readKey_quote]
  simp only [readColon_colon, h _ (endsNumeral_spacedMembers [] tail), hspace]

theorem readMembers_cons {m n : String × Value} {rest : Members} {tail : List Char}
    (h : ReadsMember g level item read m) :
    readMembers size item (fuel + 1) (membersText g level (m :: n :: rest) ++ tail) =
      let more := readMembers size item fuel (membersText g level (n :: rest) ++ tail)
      (⟨m.1, read m.2, none⟩ :: more.1, more.2) := by
  have hspace : skipSpace (spacedMembers g level (n :: rest) ++ tail) =
      ',' :: (g.gap (level + 1) ++ (membersText g level (n :: rest) ++ tail)) := by
    rw [spacedMembers, List.cons_append, skipSpace_cons rfl, membersText]
    simp only [List.append_assoc, List.cons_append]
  obtain ⟨text, htext⟩ := exists_membersText_eq g level n rest tail
  have hskip : skipSpace ('"' :: text) = '"' :: text := skipSpace_cons rfl text
  rw [membersText_cons, readMembers, readKey_quote]
  simp only [readColon_colon, h _ (endsNumeral_spacedMembers (n :: rest) tail), hspace,
    g.skipSpace_gap, htext, hskip]
  rfl

/-- Members that are read whole come before what is read of the rest. -/
theorem readMembers_append (size fuel : Nat) {before : Members} (n : String × Value) (rest : Members)
    (tail : List Char) (h : ∀ m ∈ before, ReadsMember g level item read m) :
    readMembers size item (before.length + fuel)
        (membersText g level (before ++ n :: rest) ++ tail) =
      let more := readMembers size item fuel (membersText g level (n :: rest) ++ tail)
      (before.map (fun m => ⟨m.1, read m.2, none⟩) ++ more.1, more.2) := by
  induction before with
  | nil => simp
  | cons m before ih =>
      rw [List.forall_mem_cons] at h
      have hstep : readMembers size item (before.length + fuel + 1)
          (membersText g level (m :: (before ++ n :: rest)) ++ tail) =
          let more := readMembers size item (before.length + fuel)
            (membersText g level (before ++ n :: rest) ++ tail)
          (⟨m.1, read m.2, none⟩ :: more.1, more.2) := by
        cases before <;> exact readMembers_cons h.1
      rw [List.length_cons, Nat.add_right_comm, List.cons_append, hstep, ih h.2]
      rfl

/-- What the value of the first member reads as stands first among the members. -/
theorem exists_readMembers_eq (size : Nat) (item : List Char → ReadResult) (fuel : Nat)
    (g : Spacing) (level : Nat) (m : String × Value) (rest : Members) (tail : List Char) :
    ∃ skipFault more left,
      readMembers size item (fuel + 1) (membersText g level (m :: rest) ++ tail) =
        (⟨m.1, (item (g.colon ++ (m.2.spaced g (level + 1) ++
          (spacedMembers g level rest ++ tail)))).1, skipFault⟩ :: more, left) := by
  rw [membersText_cons, readMembers, readKey_quote]
  simp only [readColon_colon]
  split
  · exact ⟨_, [], _, rfl⟩
  · split
    · exact ⟨_, [], _, rfl⟩
    · exact ⟨_, [], _, rfl⟩
    · split
      · exact ⟨_, [], _, rfl⟩
      · exact ⟨_, _, _, rfl⟩
    · exact ⟨_, [], _, rfl⟩

theorem readMembers_spaced {members : Members} (hne : members ≠ []) {tail : List Char}
    (h : ∀ m ∈ members, ReadsMember g level item read m) (hfuel : members.length ≤ fuel) :
    readMembers size item fuel (membersText g level members ++ tail) =
      (members.map fun m => ⟨m.1, read m.2, none⟩, none, some tail) := by
  obtain ⟨before, n, rfl⟩ := List.eq_nil_or_concat' members |>.resolve_left hne
  obtain ⟨spare, rfl⟩ := Nat.exists_eq_add_of_le hfuel
  rw [List.length_append, List.length_singleton, Nat.add_assoc, Nat.add_comm 1,
    readMembers_append _ _ _ _ _ fun m hm => h m (List.mem_append_left _ hm),
    readMembers_last (h n (by simp)), List.map_append]
  rfl

end Members

/-! ### Values -/

theorem length_lt_spacedItems (g : Spacing) (level : Nat) (items : List Value) :
    items.length < (spacedItems g level items).length := by
  induction items with
  | nil => simp [spacedItems]
  | cons v rest ih =>
      simp only [spacedItems, List.length_cons, List.length_append]
      omega

theorem length_lt_spacedMembers (g : Spacing) (level : Nat) (members : Members) :
    members.length < (spacedMembers g level members).length := by
  induction members with
  | nil => simp [spacedMembers]
  | cons m rest ih =>
      simp only [spacedMembers, List.length_cons, List.length_append]
      omega

theorem length_spaced_le_spacedItems (g : Spacing) (level : Nat) {v : Value} {items : List Value}
    (h : v ∈ items) :
    (v.spaced g (level + 1)).length ≤ (spacedItems g level items).length := by
  induction items with
  | nil => cases h
  | cons w rest ih =>
      simp only [spacedItems, List.length_cons, List.length_append]
      rcases List.mem_cons.mp h with rfl | h
      · omega
      · have hrest := ih h
        omega

theorem length_spaced_le_spacedMembers (g : Spacing) (level : Nat) {m : String × Value}
    {members : Members} (h : m ∈ members) :
    (m.2.spaced g (level + 1)).length ≤ (spacedMembers g level members).length := by
  induction members with
  | nil => cases h
  | cons n rest ih =>
      simp only [spacedMembers, List.length_cons, List.length_append]
      rcases List.mem_cons.mp h with rfl | h
      · omega
      · have hrest := ih h
        omega

theorem spaced_array {items : List Value} (hne : items ≠ []) :
    (Value.array items).spaced g level =
      '[' :: (g.gap (level + 1) ++ itemsText g level items) := by
  cases items with
  | nil => exact absurd rfl hne
  | cons v rest => rw [Value.spaced, itemsText]

theorem spaced_object {members : Members} (hne : members ≠ []) :
    (Value.object members).spaced g level =
      '\x7b' :: (g.gap (level + 1) ++ membersText g level members) := by
  cases members with
  | nil => exact absurd rfl hne
  | cons m rest => rw [Value.spaced, membersText]

/-- The text of an array is longer than it has items, and than each of them. -/
theorem length_items_le {items : List Value}
    (h : ((Value.array items).spaced g level).length ≤ size) :
    items.length ≤ size ∧ ∀ v ∈ items, (v.spaced g (level + 1)).length ≤ size := by
  cases items with
  | nil => exact ⟨Nat.zero_le _, fun _ h => nomatch h⟩
  | cons v rest =>
      have hrest := length_lt_spacedItems g level rest
      simp only [Value.spaced, List.length_cons, List.length_append] at h
      refine ⟨by rw [List.length_cons]; omega, List.forall_mem_cons.mpr ⟨by omega, fun w hw => ?_⟩⟩
      have hitem := length_spaced_le_spacedItems g level hw
      omega

/-- The text of an object is longer than it has members, and than each of their values. -/
theorem length_members_le {members : Members}
    (h : ((Value.object members).spaced g level).length ≤ size) :
    members.length ≤ size ∧ ∀ m ∈ members, (m.2.spaced g (level + 1)).length ≤ size := by
  cases members with
  | nil => exact ⟨Nat.zero_le _, fun _ h => nomatch h⟩
  | cons m rest =>
      have hrest := length_lt_spacedMembers g level rest
      simp only [Value.spaced, List.length_cons, List.length_append] at h
      refine ⟨by rw [List.length_cons]; omega, List.forall_mem_cons.mpr ⟨by omega, fun n hn => ?_⟩⟩
      have hmember := length_spaced_le_spacedMembers g level hn
      omega

theorem readValue_items {items : List Value} (hne : items ≠ [])
    (hstarts : ∀ v ∈ items, StartsValue (v.spaced g (level + 1))) (tail : List Char) :
    readValue size (levels + 1) ((Value.array items).spaced g level ++ tail) =
      let read := readItems (readValue size levels) size (itemsText g level items ++ tail)
      (.array read.1 read.2.1, read.2.2) := by
  have hstart : StartsValue (itemsText g level items ++ tail) := by
    cases items with
    | nil => exact absurd rfl hne
    | cons v rest =>
        rw [itemsText, List.append_assoc]
        exact (hstarts v List.mem_cons_self).append _
  rw [spaced_array hne, List.cons_append, List.append_assoc]
  unfold readValue
  rw [skipSpace_cons rfl]
  simp only [g.skipSpace_gap, hstart.skipSpace]
  obtain ⟨c, text, htext, -, hclose⟩ := hstart
  rw [htext]
  split
  next heq => cases heq
  next heq => exact absurd (List.cons.inj heq).1 hclose
  next => rfl

theorem readValue_members {members : Members} (hne : members ≠ []) (tail : List Char) :
    readValue size (levels + 1) ((Value.object members).spaced g level ++ tail) =
      let read := readMembers size (readValue size levels) size (membersText g level members ++ tail)
      (.object read.1 read.2.1, read.2.2) := by
  have hstart : ∃ text, membersText g level members ++ tail = '"' :: text := by
    cases members with
    | nil => exact absurd rfl hne
    | cons m rest => exact exists_membersText_eq g level m rest tail
  obtain ⟨text, htext⟩ := hstart
  have hskip : skipSpace ('"' :: text) = '"' :: text := skipSpace_cons rfl text
  rw [spaced_object hne, List.cons_append, List.append_assoc]
  unfold readValue
  rw [skipSpace_cons rfl]
  simp only [g.skipSpace_gap, htext, hskip]
  rfl

theorem readsMember_of_readValue {read : Value → Reading} {m : String × Value}
    (h : ∀ rest, EndsNumeral rest →
      readValue size levels (m.2.spaced g (level + 1) ++ rest) = (read m.2, some rest)) :
    ReadsMember g level (readValue size levels) read m := fun rest hrest =>
  (readValue_skipSpace (g.skipSpace_colon _)).trans (h rest hrest)

/-- A value that nests no deeper than the reader goes is read back from its text. -/
theorem readValue_spaced (v : Value) (hreads : v.ReadsAs f) (hlevels : v.nesting ≤ levels)
    (hsize : (v.spaced g level).length ≤ size) {rest : List Char} (hrest : EndsNumeral rest) :
    readValue size levels (v.spaced g level ++ rest) =
      (.ofValue (v.mapNumbers f), some rest) := by
  induction v using Value.induction generalizing levels level rest with
  | null =>
      unfold readValue
      rfl
  | bool b =>
      unfold readValue
      cases b <;> rfl
  | number n =>
      exact readValue_number (hreads n (by simp [Value.numbers])) hrest
  | string s => exact readValue_quote s rest
  | array items ih =>
      rw [Value.nesting] at hlevels
      obtain ⟨levels, rfl⟩ := Nat.exists_eq_add_of_le' (Nat.le_of_add_left_le hlevels)
      have hinner := nestingItems_le_iff.mp (Nat.le_of_add_le_add_right hlevels)
      rw [Value.readsAs_array] at hreads
      by_cases hne : items = []
      · subst hne
        unfold readValue
        rfl
      obtain ⟨hlength, hparts⟩ := length_items_le hsize
      rw [readValue_items hne (fun v hv => startsValue_spaced (hreads v hv)),
        readItems_spaced hne (fun v hv => ⟨startsValue_spaced (hreads v hv), fun rest hrest =>
          ih v hv (hreads v hv) (hinner v hv) (hparts v hv) hrest⟩) hlength]
      simp [Value.mapNumbers, Reading.ofValue]
  | object members ih =>
      rw [Value.nesting] at hlevels
      obtain ⟨levels, rfl⟩ := Nat.exists_eq_add_of_le' (Nat.le_of_add_left_le hlevels)
      have hinner := nestingMembers_le_iff.mp (Nat.le_of_add_le_add_right hlevels)
      rw [Value.readsAs_object] at hreads
      by_cases hne : members = []
      · subst hne
        unfold readValue
        rfl
      obtain ⟨hlength, hparts⟩ := length_members_le hsize
      have hmember (m) (hm : m ∈ members) : ReadsMember g level (readValue size levels)
          (fun v => .ofValue (v.mapNumbers f)) m :=
        readsMember_of_readValue fun rest hrest =>
          ih m hm (hreads m hm) (hinner m hm) (hparts m hm) hrest
      rw [readValue_members hne, readMembers_spaced hne hmember hlength]
      simp [Value.mapNumbers, Reading.ofValue, Reading.ofMember]

/-! ### Texts -/

theorem ofText_spaced {v : Value} {text : String} (htext : text.toList = v.spaced g level)
    (hreads : v.ReadsAs f) (hlevels : v.nesting ≤ levels) :
    Reading.ofText levels text = (.ofValue (v.mapNumbers f), none) := by
  have hsize : (v.spaced g level).length ≤ text.length :=
    Nat.le_of_eq (by rw [← htext, String.length_toList])
  have hread := readValue_spaced v hreads hlevels hsize endsNumeral_nil
  rw [List.append_nil] at hread
  rw [Reading.ofText, htext, hread]
  rfl

theorem toList_compact_eq_spaced (v : Value) : v.compact.toList = v.spaced .none 0 := by
  rw [toList_compact, Value.spaced_none]

theorem toList_pretty_eq_spaced (v : Value) : v.pretty.toList = v.spaced .lines 0 := by
  rw [toList_pretty, Value.spaced_lines]

/-! ### Values that nest too deep -/

/-- The first element of a list that exceeds a bound. -/
theorem exists_first_lt {α : Type} {measure : α → Nat} {xs : List α} {n : Nat}
    (h : ¬ ∀ x ∈ xs, measure x ≤ n) :
    ∃ before x rest, xs = before ++ x :: rest ∧ (∀ y ∈ before, measure y ≤ n) ∧
      n < measure x := by
  induction xs with
  | nil => exact absurd (fun _ h => nomatch h) h
  | cons x rest ih =>
      by_cases hx : measure x ≤ n
      · have hrest : ¬ ∀ y ∈ rest, measure y ≤ n := fun hrest =>
          h (List.forall_mem_cons.mpr ⟨hx, hrest⟩)
        obtain ⟨before, y, after, rfl, hbefore, hy⟩ := ih hrest
        exact ⟨x :: before, y, after, rfl, List.forall_mem_cons.mpr ⟨hx, hbefore⟩, hy⟩
      · exact ⟨[], x, rest, rfl, fun _ hy => absurd hy List.not_mem_nil, Nat.lt_of_not_le hx⟩

theorem Reading.faultOfItems_append {before : List Reading} {r : Reading} {fault : Fault}
    (h : ∀ x ∈ before, x.firstFault = none) (hr : r.firstFault = some fault)
    (more : List Reading) : faultOfItems (before ++ r :: more) = some fault := by
  induction before with
  | nil => simp [faultOfItems, hr]
  | cons x before ih =>
      rw [List.forall_mem_cons] at h
      rw [List.cons_append, faultOfItems, h.1, Option.none_or, ih h.2]

theorem Reading.faultOfMembers_append {before : List ReadMember} {m : ReadMember} {fault : Fault}
    (h : ∀ x ∈ before, x.value.firstFault = none) (hm : m.value.firstFault = some fault)
    (more : List ReadMember) : faultOfMembers (before ++ m :: more) = some fault := by
  induction before with
  | nil =>
      cases m
      rw [List.nil_append, faultOfMembers, hm, Option.some_or]
  | cons x before ih =>
      rw [List.forall_mem_cons] at h
      cases x
      rw [List.cons_append, faultOfMembers, h.1, Option.none_or, ih h.2]

/-- Items that are read whole come before what is read of the next one. -/
theorem exists_readValue_array {before : List Value} {w : Value} {rest : List Value}
    (hreads : (Value.array (before ++ w :: rest)).ReadsAs f)
    (hlevels : ∀ v ∈ before, v.nesting ≤ levels)
    (hsize : ((Value.array (before ++ w :: rest)).spaced g level).length ≤ size)
    (tail : List Char) :
    ∃ text more fault,
      (readValue size (levels + 1)
          ((Value.array (before ++ w :: rest)).spaced g level ++ tail)).1 =
        .array (before.map (fun v => .ofValue (v.mapNumbers f)) ++
          (readValue size levels (w.spaced g (level + 1) ++ text)).1 :: more) fault := by
  rw [Value.readsAs_array] at hreads
  obtain ⟨hlength, hparts⟩ := length_items_le hsize
  have hw : w ∈ before ++ w :: rest := by simp
  obtain ⟨fuel, hfuel⟩ : ∃ fuel, size = before.length + (fuel + 1) := by
    rw [List.length_append, List.length_cons] at hlength
    exact ⟨size - before.length - 1, by omega⟩
  have hbefore (v) (hv : v ∈ before) : StartsValue (v.spaced g (level + 1)) ∧
      ∀ rest, EndsNumeral rest → readValue size levels (v.spaced g (level + 1) ++ rest) =
        (.ofValue (v.mapNumbers f), some rest) := by
    have hmem : v ∈ before ++ w :: rest := List.mem_append_left _ hv
    exact ⟨startsValue_spaced (hreads v hmem), fun rest hrest =>
      readValue_spaced v (hreads v hmem) (hlevels v hv) (hparts v hmem) hrest⟩
  have hitems := readItems_append (fuel + 1) rest tail hbefore (startsValue_spaced (hreads w hw))
  rw [← hfuel] at hitems
  obtain ⟨more, left, hmore⟩ := exists_readItems_eq (readValue size levels) fuel
    (itemsText g level (w :: rest) ++ tail)
  rw [readValue_items (by simp) fun v hv => startsValue_spaced (hreads v hv), hitems]
  refine ⟨spacedItems g level rest ++ tail, more, left.1, ?_⟩
  simp only [hmore]
  rw [itemsText, List.append_assoc]

/-- Members that are read whole come before what is read of the next one. -/
theorem exists_readValue_object {before : Members} {m : String × Value} {rest : Members}
    (hreads : (Value.object (before ++ m :: rest)).ReadsAs f)
    (hlevels : ∀ n ∈ before, n.2.nesting ≤ levels)
    (hsize : ((Value.object (before ++ m :: rest)).spaced g level).length ≤ size)
    (tail : List Char) :
    ∃ text skipFault more fault,
      (readValue size (levels + 1)
          ((Value.object (before ++ m :: rest)).spaced g level ++ tail)).1 =
        .object (before.map (fun n => ⟨n.1, .ofValue (n.2.mapNumbers f), none⟩) ++
          ⟨m.1, (readValue size levels (m.2.spaced g (level + 1) ++ text)).1, skipFault⟩ ::
            more) fault := by
  rw [Value.readsAs_object] at hreads
  obtain ⟨hlength, hparts⟩ := length_members_le hsize
  obtain ⟨fuel, hfuel⟩ : ∃ fuel, size = before.length + (fuel + 1) := by
    rw [List.length_append, List.length_cons] at hlength
    exact ⟨size - before.length - 1, by omega⟩
  have hbefore (n) (hn : n ∈ before) : ReadsMember g level (readValue size levels)
      (fun v => .ofValue (v.mapNumbers f)) n := by
    have hmem : n ∈ before ++ m :: rest := List.mem_append_left _ hn
    exact readsMember_of_readValue fun rest hrest =>
      readValue_spaced n.2 (hreads n hmem) (hlevels n hn) (hparts n hmem) hrest
  have hmembers := readMembers_append size (fuel + 1) m rest tail hbefore
  rw [← hfuel] at hmembers
  obtain ⟨skipFault, more, left, hmore⟩ := exists_readMembers_eq size
    (readValue size levels) fuel g level m rest tail
  have hskip := g.skipSpace_colon
    (m.2.spaced g (level + 1) ++ (spacedMembers g level rest ++ tail))
  rw [readValue_skipSpace hskip] at hmore
  rw [readValue_members (by simp), hmembers]
  refine ⟨spacedMembers g level rest ++ tail, skipFault, more, left.1, ?_⟩
  simp only [hmore]

theorem readValue_of_no_levels {v : Value} (h : 0 < v.nesting) (text : List Char) :
    (readValue size 0 (v.spaced g level ++ text)).1.firstFault = some .recursionLimit := by
  cases v with
  | null | bool | number | string => simp [Value.nesting] at h
  | array items =>
      unfold readValue
      cases items <;> rfl
  | object members =>
      unfold readValue
      cases members <;> rfl

/-- The first fault of a value that nests too deep is that it does. -/
theorem firstFault_readValue_of_deep (v : Value) (hreads : v.ReadsAs f)
    (hlevels : levels < v.nesting) (hsize : (v.spaced g level).length ≤ size)
    (text : List Char) :
    (readValue size levels (v.spaced g level ++ text)).1.firstFault = some .recursionLimit := by
  induction v using Value.induction generalizing levels level text with
  | null | bool | number | string => simp [Value.nesting] at hlevels
  | array items ih =>
      cases levels with
      | zero => exact readValue_of_no_levels hlevels text
      | succ levels =>
          have hdeep : ¬ ∀ v ∈ items, v.nesting ≤ levels := by
            rw [Value.nesting] at hlevels
            rw [← nestingItems_le_iff]
            omega
          obtain ⟨before, w, rest, rfl, hbefore, hw⟩ := exists_first_lt hdeep
          have hmem : w ∈ before ++ w :: rest := by simp
          obtain ⟨text, more, fault, hread⟩ := exists_readValue_array hreads hbefore hsize text
          have hfault := ih w hmem (Value.readsAs_array.mp hreads w hmem) hw
            ((length_items_le hsize).2 w hmem) text
          rw [hread, Reading.firstFault, Reading.faultOfItems_append ?_ hfault, Option.some_or]
          intro r hr
          obtain ⟨v, -, rfl⟩ := List.mem_map.mp hr
          exact Reading.firstFault_ofValue _
  | object members ih =>
      cases levels with
      | zero => exact readValue_of_no_levels hlevels text
      | succ levels =>
          have hdeep : ¬ ∀ m ∈ members, m.2.nesting ≤ levels := by
            rw [Value.nesting] at hlevels
            rw [← nestingMembers_le_iff]
            omega
          obtain ⟨before, m, rest, rfl, hbefore, hm⟩ := exists_first_lt hdeep
          have hmem : m ∈ before ++ m :: rest := by simp
          obtain ⟨text, skipFault, more, fault, hread⟩ :=
            exists_readValue_object hreads hbefore hsize text
          have hfault := ih m hmem (Value.readsAs_object.mp hreads m hmem) hm
            ((length_members_le hsize).2 m hmem) text
          rw [hread, Reading.firstFault, Reading.faultOfMembers_append ?_ hfault, Option.some_or]
          intro x hx
          obtain ⟨n, -, rfl⟩ := List.mem_map.mp hx
          exact Reading.firstFault_ofValue _

end Json

end CurlyTemplate
