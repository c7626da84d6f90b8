import CurlyTemplate.Proofs.Json.Holding
import CurlyTemplate.Proofs.Syntax.Encoding

/-!
# Well-formed trees

A tree is well-formed when the numbers in its encoding have a property `P` and its nodes
keep their own keys to themselves. For each kind of node this comes down to the nodes
inside, the span and the further members.
-/

namespace CurlyTemplate

open Json (Number Value Members)

variable {P : Number → Prop}

theorem Value.holds_array_map {α : Type} {encode : α → Value} {xs : List α} :
    (Value.array (xs.map encode)).Holds P ↔ ∀ x ∈ xs, (encode x).Holds P := by
  rw [Value.holds_array, List.forall_mem_map]

theorem holds_encodeStrings (ss : List String) : (encodeStrings ss).Holds P :=
  Value.holds_array_map.mpr fun s _ => Value.holds_string s

theorem Position.holds_encode {p : Position} :
    p.encode.Holds P ↔ P (.int p.line) ∧ P (.int p.column) := by
  simp [Position.encode]

theorem Span.holds_encode {s : Span} :
    s.encode.Holds P ↔ s.start.encode.Holds P ∧ s.stop.encode.Holds P := by
  cases hs : s.source <;> simp [Span.encode, hs]

theorem Path.holds_encodeFields {p : Path} :
    (Value.object p.encodeFields).Holds P ↔ p.loc.encode.Holds P := by
  simp [Path.encodeFields, holds_encodeStrings]

theorem HashPair.holds_encode {p : HashPair} :
    p.encode.Holds P ↔ p.value.encode.Holds P ∧ p.loc.encode.Holds P := by
  simp [HashPair.encode_eq]

theorem Hash.holds_encode {h : Hash} :
    h.encode.Holds P ↔ (∀ p ∈ h.pairs, p.encode.Holds P) ∧ h.loc.encode.Holds P := by
  simp [Hash.encode_eq]

/-- A property holds of the numbers in a call. -/
def Call.Holds (P : Number → Prop) (c : Call) : Prop := (Value.object c.encodeFields).Holds P

theorem Call.holds_iff {c : Call} :
    c.Holds P ↔ c.path.encode.Holds P ∧ (∀ e ∈ c.params, e.encode.Holds P) ∧
      c.hash.encode.Holds P := by
  simp [Holds, Call.encodeFields_eq]

theorem Expression.holds_encode_path {p : Path} :
    (Expression.path p).encode.Holds P ↔ p.loc.encode.Holds P := by
  rw [← Path.holds_encodeFields]
  simp [Expression.encode]

theorem Expression.holds_encode_sub {c : Call} {loc : Span} :
    (Expression.sub c loc).encode.Holds P ↔ c.Holds P ∧ loc.encode.Holds P := by
  simp only [Expression.encode, Value.holds_object, List.forall_mem_cons, List.forall_mem_append,
    Value.holds_string, true_and, Call.Holds]
  simp

theorem Modifier.holds_encode {m : Modifier} :
    m.encode.Holds P ↔ m.call.Holds P ∧ m.loc.encode.Holds P := by
  simp only [Modifier.encode, Value.holds_object, List.forall_mem_cons, List.forall_mem_append,
    Value.holds_string, true_and, Call.Holds]
  simp

theorem TextNode.holds_encode {t : TextNode} : t.encode.Holds P ↔ t.loc.encode.Holds P := by
  simp [TextNode.encode]

theorem Comment.holds_encode {name : String} {c : Comment} :
    (c.encode name).Holds P ↔ c.loc.encode.Holds P := by
  simp [Comment.encode]

/-! ### Nodes with further members -/

def Extra.WellFormed (P : Number → Prop) (x : Extra) : Prop :=
  x.Proper ∧ (Value.object x.members).Holds P

structure Mustache.WellFormed (P : Number → Prop) (m : Mustache) : Prop where
  call : m.call.Holds P
  loc : m.loc.encode.Holds P
  extra : Extra.WellFormed P ⟨Mustache.ownKeys, m.extra⟩

theorem Mustache.holds_encode {m : Mustache} :
    m.encode.Holds P ↔
      m.call.Holds P ∧ m.loc.encode.Holds P ∧ (Value.object m.extra).Holds P := by
  simp only [Mustache.encode, Value.holds_object, List.forall_mem_cons, List.forall_mem_append,
    Value.holds_string, Value.holds_bool, true_and, Call.Holds]

theorem Mustache.wellFormed_iff {m : Mustache} :
    m.WellFormed P ↔ m.encode.Holds P ∧ ∀ x ∈ m.extras, x.Proper := by
  rw [holds_encode, extras, List.forall_mem_singleton]
  exact ⟨fun h => ⟨⟨h.call, h.loc, h.extra.2⟩, h.extra.1⟩,
    fun h => ⟨h.1.1, h.1.2.1, h.2, h.1.2.2⟩⟩

def ConcatPart.WellFormed (P : Number → Prop) (part : ConcatPart) : Prop :=
  part.encode.Holds P ∧ ∀ x ∈ part.extras, x.Proper

theorem ConcatPart.wellFormed_text {t : TextNode} :
    (ConcatPart.text t).WellFormed P ↔ t.encode.Holds P :=
  and_iff_left nofun

theorem ConcatPart.wellFormed_mustache {m : Mustache} :
    (ConcatPart.mustache m).WellFormed P ↔ m.WellFormed P :=
  Mustache.wellFormed_iff.symm

def AttributeValue.WellFormed (P : Number → Prop) (value : AttributeValue) : Prop :=
  value.encode.Holds P ∧ ∀ x ∈ value.extras, x.Proper

theorem AttributeValue.wellFormed_text {t : TextNode} :
    (AttributeValue.text t).WellFormed P ↔ t.encode.Holds P :=
  and_iff_left nofun

theorem AttributeValue.wellFormed_mustache {m : Mustache} :
    (AttributeValue.mustache m).WellFormed P ↔ m.WellFormed P :=
  Mustache.wellFormed_iff.symm

/-- What holds of all elements of some lists holds in two ways for each list. -/
theorem forall_mem_flatMap_and {α : Type} {xs : List α} {A : α → Prop} {f : α → List Extra} :
    (∀ x ∈ xs, A x ∧ ∀ e ∈ f x, e.Proper) ↔
      (∀ x ∈ xs, A x) ∧ ∀ e ∈ xs.flatMap f, e.Proper := by
  rw [List.forall_mem_flatMap]
  exact forall₂_and

theorem AttributeValue.wellFormed_concat {parts : List ConcatPart} {loc : Span} :
    (AttributeValue.concat parts loc).WellFormed P ↔
      (∀ part ∈ parts, part.WellFormed P) ∧ loc.encode.Holds P := by
  have hencode : (AttributeValue.concat parts loc).encode.Holds P ↔
      (∀ part ∈ parts, part.encode.Holds P) ∧ loc.encode.Holds P := by simp [encode]
  rw [WellFormed, hencode, and_right_comm, extras, ← forall_mem_flatMap_and]
  rfl

def Attribute.WellFormed (P : Number → Prop) (a : Attribute) : Prop :=
  a.encode.Holds P ∧ ∀ x ∈ a.value.extras, x.Proper

theorem Attribute.holds_encode {a : Attribute} :
    a.encode.Holds P ↔ a.value.encode.Holds P ∧ a.loc.encode.Holds P := by
  simp [encode]

theorem Attribute.wellFormed_iff {a : Attribute} :
    a.WellFormed P ↔ a.value.WellFormed P ∧ a.loc.encode.Holds P := by
  rw [WellFormed, holds_encode, and_right_comm]
  rfl

def Statement.WellFormed (P : Number → Prop) (s : Statement) : Prop :=
  s.encode.Holds P ∧ ∀ x ∈ s.extras, x.Proper

structure Element.WellFormed (P : Number → Prop) (e : Element) : Prop where
  attributes : ∀ a ∈ e.attributes, a.WellFormed P
  modifiers : ∀ m ∈ e.modifiers, m.encode.Holds P
  children : ∀ s ∈ e.children, s.WellFormed P
  loc : e.loc.encode.Holds P
  extra : Extra.WellFormed P ⟨Element.ownKeys, e.extra⟩

def Program.WellFormed (P : Number → Prop) (p : Program) : Prop :=
  p.encode.Holds P ∧ ∀ x ∈ p.extras, x.Proper

structure Block.WellFormed (P : Number → Prop) (b : Block) : Prop where
  call : b.call.Holds P
  program : b.program.WellFormed P
  inverse : ∀ p, b.inverse = some p → p.WellFormed P
  loc : b.loc.encode.Holds P
  extra : Extra.WellFormed P ⟨Block.ownKeys, b.extra⟩

theorem Program.holds_encode {p : Program} :
    p.encode.Holds P ↔ (∀ s ∈ p.body, s.encode.Holds P) ∧ p.loc.encode.Holds P := by
  simp [encode_eq, holds_encodeStrings]

theorem Program.wellFormed_iff {p : Program} :
    p.WellFormed P ↔ (∀ s ∈ p.body, s.WellFormed P) ∧ p.loc.encode.Holds P := by
  rw [WellFormed, holds_encode, and_right_comm, extras_eq, ← forall_mem_flatMap_and]
  rfl

theorem Element.holds_encode {e : Element} :
    e.encode.Holds P ↔ (∀ a ∈ e.attributes, a.encode.Holds P) ∧
      (∀ m ∈ e.modifiers, m.encode.Holds P) ∧ (∀ s ∈ e.children, s.encode.Holds P) ∧
      e.loc.encode.Holds P ∧ (Value.object e.extra).Holds P := by
  cases hclosing : e.selfClosing <;>
    simp [encode_eq, encodeFields, hclosing, holds_encodeStrings, or_imp, forall_and]

theorem Statement.wellFormed_element {e : Element} :
    (Statement.element e).WellFormed P ↔ e.WellFormed P := by
  rw [WellFormed, encode, Element.holds_encode, extras_element, List.forall_mem_cons,
    List.forall_mem_append]
  constructor
  · rintro ⟨⟨hattributes, hmodifiers, hchildren, hloc, hextra⟩, hproper, hvalues, hnodes⟩
    exact ⟨forall_mem_flatMap_and.mpr ⟨hattributes, hvalues⟩, hmodifiers,
      forall_mem_flatMap_and.mpr ⟨hchildren, hnodes⟩, hloc, hproper, hextra⟩
  · intro h
    obtain ⟨hattributes, hvalues⟩ := forall_mem_flatMap_and.mp h.attributes
    obtain ⟨hchildren, hnodes⟩ := forall_mem_flatMap_and.mp h.children
    exact ⟨⟨hattributes, h.modifiers, hchildren, h.loc, h.extra.2⟩, h.extra.1, hvalues, hnodes⟩

theorem Statement.wellFormed_mustache {m : Mustache} :
    (Statement.mustache m).WellFormed P ↔ m.WellFormed P :=
  Mustache.wellFormed_iff.symm

theorem Block.holds_encode {b : Block} :
    b.encode.Holds P ↔ b.call.Holds P ∧ b.program.encode.Holds P ∧
      (∀ p, b.inverse = some p → p.encode.Holds P) ∧ b.loc.encode.Holds P ∧
      (Value.object b.extra).Holds P := by
  cases hinverse : b.inverse <;>
    simp [encode_eq, encodeFields, hinverse, Call.Holds, or_imp, forall_and]

theorem Statement.wellFormed_block {b : Block} :
    (Statement.block b).WellFormed P ↔ b.WellFormed P := by
  have hinverse : (∀ x ∈ b.inverse.elim [] Program.extras, x.Proper) ↔
      ∀ p, b.inverse = some p → ∀ x ∈ p.extras, x.Proper := by
    cases b.inverse <;> simp
  rw [WellFormed, encode, Block.holds_encode, extras_block, List.forall_mem_cons,
    List.forall_mem_append, hinverse]
  constructor
  · rintro ⟨⟨hcall, hprogram, hbody, hloc, hextra⟩, hproper, hnodes, hbelow⟩
    exact ⟨hcall, ⟨hprogram, hnodes⟩, fun p hp => ⟨hbody p hp, hbelow p hp⟩, hloc, hproper, hextra⟩
  · intro h
    exact ⟨⟨h.call, h.program.1, fun p hp => (h.inverse p hp).1, h.loc, h.extra.2⟩, h.extra.1,
      h.program.2, fun p hp => (h.inverse p hp).2⟩

theorem Statement.wellFormed_text {t : TextNode} :
    (Statement.text t).WellFormed P ↔ t.encode.Holds P :=
  and_iff_left nofun

theorem Statement.wellFormed_comment {c : Comment} :
    (Statement.comment c).WellFormed P ↔ (c.encode "CommentStatement").Holds P :=
  and_iff_left nofun

theorem Statement.wellFormed_mustacheComment {c : Comment} :
    (Statement.mustacheComment c).WellFormed P ↔ (c.encode "MustacheCommentStatement").Holds P :=
  and_iff_left nofun

/-! ### Documents -/

def Document.WellFormed (P : Number → Prop) (d : Document) : Prop :=
  d.encode.Holds P ∧ ∀ x ∈ d.extras, x.Proper

theorem Document.wellFormed_iff {d : Document} : d.WellFormed P ↔ d.ast.WellFormed P := by
  have hencode : d.encode.Holds P ↔ d.ast.encode.Holds P := by
    cases hname : d.moduleName <;> cases hcontents : d.contents <;>
      simp [encode, hname, hcontents]
  rw [WellFormed, hencode]
  rfl

end CurlyTemplate
