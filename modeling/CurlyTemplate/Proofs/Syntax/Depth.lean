import CurlyTemplate.Proofs.Decode.Faults
import CurlyTemplate.Proofs.Json.ReadBack
import CurlyTemplate.Proofs.Syntax.Doubles
import CurlyTemplate.Proofs.Syntax.RoundTrip

/-!
# Trees that nest too deep

The text of a tree that nests deeper than the reader goes is decoded up to the bracket that
goes too deep: all before it is taken, so it is of this bracket that decoding complains
(`document_of_deep`). The doubles in the text may be read as others.
-/

namespace CurlyTemplate

open Json (Fault Members Number Reading ReadMember Spacing Value)
open Decode (Decoder Variant union tagKey)

variable {f : Number → Number} {g : Float → Float} {spacing : Spacing}
  {size level levels : Nat}

/-- Other doubles make a statement neither deeper nor its further members less proper. -/
theorem takes_statement_mapDoubles (s : Statement) (hlevels : s.encode.nesting ≤ levels)
    (hextras : ∀ x ∈ s.extras, x.Proper) :
    Decode.Takes (Statement.decode levels) (s.mapDoubles g).encode (s.mapDoubles g) := by
  refine takes_statement _ ?_ ?_
  · rw [Statement.encode_mapDoubles]
    exact s.encode.nesting_mapNumbers_le hlevels
  · rw [Statement.extras_mapDoubles]
    exact Extra.forall_proper_map hextras

/-- A union that nests too deep is a fault, as a union is read whole. -/
theorem union_of_deep {α : Type} {name : String} {variants : List (Variant α)}
    {variant : Variant α} (hvariant : variants.find? (·.name == variant.name) = some variant)
    {members : Members} (hkeys : ∀ m ∈ members, m.1 ≠ tagKey)
    (hreads : (Value.object ((tagKey, .string variant.name) :: members)).ReadsAs f)
    (hdeep : levels + 1 < (Value.object ((tagKey, .string variant.name) :: members)).nesting)
    (hsize : ((Value.object ((tagKey, .string variant.name) :: members)).spaced
      spacing level).length ≤ size) (text : List Char) (manner : Decode.Manner) :
    union name variants manner (Json.readValue size (levels + 1)
      ((Value.object ((tagKey, .string variant.name) :: members)).spaced spacing level ++ text)).1 =
      .error (.malformed .recursionLimit) := by
  -- The tag does not nest, so the first member that goes too deep stands behind it.
  have hmembers : ¬ ∀ m ∈ members, m.2.nesting ≤ levels := by
    simp only [Value.nesting, Json.nestingMembers, Nat.zero_max] at hdeep
    rw [← Json.nestingMembers_le_iff]
    omega
  obtain ⟨before, m, rest, rfl, hbefore, hm⟩ := Json.exists_first_lt hmembers
  have hmem : m ∈ (tagKey, Value.string variant.name) :: (before ++ m :: rest) := by simp
  rw [← List.cons_append] at hreads hsize ⊢
  obtain ⟨text, skipFault, more, fault, hread⟩ := Json.exists_readValue_object hreads
    (List.forall_mem_cons.mpr ⟨Nat.zero_le _, hbefore⟩) hsize text
  have hfault := Json.firstFault_readValue_of_deep m.2 (Value.readsAs_object.mp hreads m hmem) hm
    ((Json.length_members_le hsize).2 m hmem) text
  have hbefore : ((tagKey, .string variant.name) :: before).map
      (fun n => (⟨n.1, .ofValue (n.2.mapNumbers f), none⟩ : ReadMember)) =
      ((tagKey, .string variant.name) :: before.map fun n => (n.1, n.2.mapNumbers f)).map
        Reading.ofMember := by
    rw [List.map_cons, List.map_cons, List.map_map]
    rfl
  rw [List.forall_mem_append, List.forall_mem_cons] at hkeys
  have hothers : ∀ n ∈ before.map fun n => (n.1, n.2.mapNumbers f), n.1 ≠ tagKey :=
    List.forall_mem_map.mpr hkeys.1
  rw [hread, hbefore]
  exact Decode.union_fault hvariant hothers hkeys.2.1 hfault manner skipFault more fault

theorem statement_of_deep (depth : Nat) (s : Statement) (hextras : ∀ x ∈ s.extras, x.Proper)
    (hreads : s.encode.ReadsAs f) (hdeep : levels + 1 < s.encode.nesting)
    (hsize : (s.encode.spaced spacing level).length ≤ size) (text : List Char)
    (manner : Decode.Manner) :
    Statement.decode (depth + 1) manner
      (Json.readValue size (levels + 1) (s.encode.spaced spacing level ++ text)).1 =
      .error (.malformed .recursionLimit) := by
  cases s with
  | element e =>
      rw [Statement.extras_element] at hextras
      rw [Statement.encode, Element.encode_eq] at *
      exact union_of_deep (Statement.find?_variants _ _ 0 rfl)
        (Element.ne_tagKey_of_mem (hextras _ List.mem_cons_self)) hreads hdeep hsize text manner
  | mustache m =>
      rw [Statement.encode, Mustache.encode_eq] at *
      exact union_of_deep (Statement.find?_variants _ _ 1 rfl)
        (Mustache.ne_tagKey_of_mem (hextras _ List.mem_cons_self)) hreads hdeep hsize text manner
  | block b =>
      rw [Statement.extras_block] at hextras
      rw [Statement.encode, Block.encode_eq] at *
      exact union_of_deep (Statement.find?_variants _ _ 2 rfl)
        (Block.ne_tagKey_of_mem (hextras _ List.mem_cons_self)) hreads hdeep hsize text manner
  | text t =>
      exact union_of_deep (Statement.find?_variants _ _ 3 rfl) (by simp [tagKey]) hreads hdeep
        hsize text manner
  | comment c =>
      exact union_of_deep (Statement.find?_variants _ _ 4 rfl) (by simp [tagKey]) hreads hdeep
        hsize text manner
  | mustacheComment c =>
      exact union_of_deep (Statement.find?_variants _ _ 5 rfl) (by simp [tagKey]) hreads hdeep
        hsize text manner

/-- Of statements the first that nests too deep is complained of. -/
theorem statements_of_deep {depth : Nat} {ss : List Statement} (hextras : ∀ s ∈ ss, ∀ x ∈ s.extras, x.Proper)
    (hreads : (Value.array (ss.map Statement.encode)).ReadsAs (Number.mapDouble g))
    (hdeep : levels + 2 < (Value.array (ss.map Statement.encode)).nesting)
    (hlevels : levels ≤ depth)
    (hsize : ((Value.array (ss.map Statement.encode)).spaced spacing level).length ≤ size)
    (text : List Char) (manner : Decode.Manner) :
    Decode.list (Statement.decode (depth + 1)) manner (Json.readValue size (levels + 2)
      ((Value.array (ss.map Statement.encode)).spaced spacing level ++ text)).1 =
      .error (.malformed .recursionLimit) := by
  have hsome : ¬ ∀ s ∈ ss, s.encode.nesting ≤ levels + 1 := fun hall => by
    have hitems := Json.nestingItems_le_iff.mpr (List.forall_mem_map.mpr hall)
    rw [Value.nesting] at hdeep
    omega
  obtain ⟨before, s, rest, rfl, hbefore, hs⟩ := Json.exists_first_lt hsome
  rw [List.forall_mem_append, List.forall_mem_cons] at hextras
  have hmem : s.encode ∈ (before ++ s :: rest).map Statement.encode :=
    List.mem_map_of_mem (by simp)
  have hstatement := statement_of_deep depth s hextras.2.1
    (Value.readsAs_array.mp hreads _ hmem) hs ((Json.length_items_le hsize).2 _ hmem)
  rw [List.map_append, List.map_cons] at hreads hsize ⊢
  obtain ⟨text, more, fault, hread⟩ := Json.exists_readValue_array hreads
    (List.forall_mem_map.mpr hbefore) hsize text
  -- What was read before it are statements again, though perhaps with other doubles.
  have htaken : ∀ t ∈ before.map (·.mapDoubles g),
      Decode.Takes (Statement.decode (depth + 1)) t.encode t :=
    List.forall_mem_map.mpr fun t ht =>
      takes_statement_mapDoubles t (Nat.le_trans (hbefore t ht) (by omega)) (hextras.1 t ht)
  have hmapped : (before.map Statement.encode).map
      (fun v => Reading.ofValue (v.mapNumbers (Number.mapDouble g))) =
      (before.map (·.mapDoubles g)).map fun t => .ofValue t.encode := by
    simp only [List.map_map, Function.comp_def, Statement.encode_mapDoubles]
  rw [hread, hmapped]
  exact Decode.list_fault htaken (hstatement text manner) more fault

/-- The statements of a program that nests deeper than any place. -/
theorem Program.nesting_body {p : Program} (h : levels + 3 < p.encode.nesting) :
    levels + 2 < (Value.array (p.body.map Statement.encode)).nesting := by
  have hparams : (encodeStrings p.blockParams).nesting ≤ 1 :=
    Nat.succ_le_succ (Json.nestingItems_le_iff.mpr (List.forall_mem_map.mpr fun _ _ => Nat.zero_le _))
  have hloc : p.loc.encode.nesting = 2 := by
    cases hsource : p.loc.source <;>
      simp [Span.encode, hsource, Position.encode, Value.nesting, Json.nestingMembers]
  have htag : (Value.string "Program").nesting = 0 := rfl
  rw [Program.encode_eq, Value.nesting] at h
  simp only [Json.nestingMembers, htag, hloc] at h
  omega

/-- A program nests deep only by its statements, which come first. -/
theorem program_of_deep {depth : Nat} (p : Program) (hextras : ∀ x ∈ p.extras, x.Proper)
    (hreads : p.encode.ReadsAs (Number.mapDouble g)) (hdeep : levels + 3 < p.encode.nesting)
    (hlevels : levels ≤ depth) (hsize : (p.encode.spaced spacing level).length ≤ size)
    (text : List Char) (manner : Decode.Manner) :
    Program.decode (depth + 1) manner
      (Json.readValue size (levels + 3) (p.encode.spaced spacing level ++ text)).1 =
      .error (.malformed .recursionLimit) := by
  have hbody := Program.nesting_body hdeep
  have hencode : p.encode = .object ([("type", .string "Program")] ++
      ("body", .array (p.body.map Statement.encode)) ::
        [("blockParams", encodeStrings p.blockParams), ("loc", p.loc.encode)]) := p.encode_eq
  rw [Program.extras_eq, List.forall_mem_flatMap] at hextras
  rw [hencode] at hreads hsize ⊢
  have hstatements := statements_of_deep hextras
    (Value.readsAs_object.mp hreads ("body", _) (by simp)) hbody hlevels
    ((Json.length_members_le hsize).2 ("body", _) (by simp))
  obtain ⟨text, skipFault, more, fault, hread⟩ := Json.exists_readValue_object hreads
    (List.forall_mem_singleton.mpr (Nat.zero_le _)) hsize text
  rw [hread, Program.decode]
  exact Decode.Schema.tagged_fault rfl ["body", "blockParams", "loc"] rfl (by decide) rfl
    (Decode.optionalField_fault (hstatements text manner) "body" _) skipFault more fault

/-- The members of a document before its tree. -/
def Document.heading (d : Document) : Members :=
  d.moduleName.elim [] (fun s => [("moduleName", .string s)]) ++
    (d.contents.elim [] (fun s => [("contents", .string s)]) ++ [])

theorem Document.encode_eq (d : Document) :
    d.encode = .object (d.heading ++ ("ast", d.ast.encode) :: []) := by
  rw [encode, heading, List.append_nil]

theorem Document.exists_string_of_mem_heading {d : Document} {m : String × Value}
    (h : m ∈ d.heading) : ∃ s, m.2 = .string s := by
  rw [heading, List.append_nil] at h
  rcases List.mem_append.mp h with h | h
  · cases hname : d.moduleName <;> simp_all
  · cases hcontents : d.contents <;> simp_all

theorem Document.nesting_heading {d : Document} {m : String × Value} (h : m ∈ d.heading) :
    m.2.nesting = 0 := by
  obtain ⟨s, hs⟩ := exists_string_of_mem_heading h
  rw [hs]
  rfl

theorem Document.nesting_ast {d : Document} (h : levels + 4 < d.encode.nesting) :
    levels + 3 < d.ast.encode.nesting := by
  rw [encode_eq, Value.nesting] at h
  refine Nat.lt_of_not_le fun hast => ?_
  have hall : ∀ m ∈ d.heading ++ [("ast", d.ast.encode)], m.2.nesting ≤ levels + 3 := by
    rw [List.forall_mem_append, List.forall_mem_singleton]
    exact ⟨fun m hm => by rw [nesting_heading hm]; exact Nat.zero_le _, hast⟩
  have hmembers := Json.nestingMembers_le_iff.mpr hall
  omega

/-- A document that nests too deep is decoded up to the bracket that goes too deep. -/
theorem document_of_deep {depth : Nat} (d : Document) (hextras : ∀ x ∈ d.extras, x.Proper)
    (hreads : d.encode.ReadsAs (Number.mapDouble g)) (hdeep : levels + 4 < d.encode.nesting)
    (hlevels : levels ≤ depth) (hsize : (d.encode.spaced spacing level).length ≤ size)
    (text : List Char) (manner : Decode.Manner) :
    (Document.schema (depth + 1)).decode manner
      (Json.readValue size (levels + 4) (d.encode.spaced spacing level ++ text)).1 =
      .error (.malformed .recursionLimit) := by
  have hast := Document.nesting_ast hdeep
  rw [Document.encode_eq] at hreads hsize ⊢
  have hprogram := program_of_deep d.ast hextras
    (Value.readsAs_object.mp hreads ("ast", _) (by simp)) hast hlevels
    ((Json.length_members_le hsize).2 ("ast", _) (by simp))
  have hheading (m) (hm : m ∈ d.heading) : m.2.nesting ≤ levels + 3 := by
    rw [Document.nesting_heading hm]
    exact Nat.zero_le _
  obtain ⟨text, skipFault, more, fault, hread⟩ :=
    Json.exists_readValue_object hreads hheading hsize text
  have hsame : d.heading.map (fun n =>
      (⟨n.1, .ofValue (n.2.mapNumbers (Number.mapDouble g)), none⟩ : ReadMember)) =
      d.heading.map Reading.ofMember := List.map_congr_left fun m hm => by
    obtain ⟨s, hs⟩ := Document.exists_string_of_mem_heading hm
    rw [Reading.ofMember, hs, Value.mapNumbers_string]
  rw [hread, hsame]
  exact Decode.Schema.fields_fault ["moduleName", "contents", "ast"] rfl (by decide) rfl
    (filled_optionalString rfl (filled_optionalString rfl (.nil _)))
    (Decode.requiredField_fault (hprogram text manner) "ast" _) skipFault more fault

end CurlyTemplate
