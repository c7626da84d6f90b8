import CurlyTemplate.Document
import CurlyTemplate.Proofs.Json.Values
import CurlyTemplate.Proofs.Tree.Induction

/-!
# The encoding of a tree

How the encoding of a node is put together from those of the nodes inside, and the
further members of a tree (`Document.extras`): those that elements, mustaches and blocks
keep beside their own keys, in statements and in the values of attributes.
-/

namespace CurlyTemplate

open Json (Value Members)

/-- A property of all expressions follows for an expression from the expressions right
inside. -/
@[elab_as_elim]
theorem Expression.induction {motive : Expression → Prop} (path : ∀ p, motive (.path p))
    (sub : ∀ (call : Call) loc, motive call.path → (∀ e ∈ call.params, motive e) →
      (∀ p ∈ call.hash.pairs, motive p.value) → motive (.sub call loc))
    (string : ∀ value loc, motive (.string value loc))
    (boolean : ∀ value loc, motive (.boolean value loc))
    (number : ∀ value loc, motive (.number value loc)) (null : ∀ loc, motive (.null loc))
    (undefined : ∀ loc, motive (.undefined loc)) (e : Expression) : motive e := by
  refine @Expression.rec motive
    (fun c => motive c.path ∧ (∀ e ∈ c.params, motive e) ∧ ∀ p ∈ c.hash.pairs, motive p.value)
    (fun h => ∀ p ∈ h.pairs, motive p.value) (fun p => motive p.value)
    (fun es => ∀ e ∈ es, motive e) (fun ps => ∀ p ∈ ps, motive p.value)
    path (fun call loc ih => sub call loc ih.1 ih.2.1 ih.2.2) string boolean number null undefined
    ?_ ?_ ?_ ?_ ?_ ?_ ?_ e
  · exact fun _ _ _ hpath hparams hhash => ⟨hpath, hparams, hhash⟩
  · exact fun _ _ ih => ih
  · exact fun _ _ _ ih => ih
  · exact fun _ h => nomatch h
  · exact fun _ _ he hrest => List.forall_mem_cons.mpr ⟨he, hrest⟩
  · exact fun _ h => nomatch h
  · exact fun _ _ hp hrest => List.forall_mem_cons.mpr ⟨hp, hrest⟩

@[simp] theorem encodeExpressions_eq (es : List Expression) :
    encodeExpressions es = es.map Expression.encode := by
  induction es with
  | nil => rfl
  | cons e rest ih => rw [encodeExpressions, ih, List.map_cons]

@[simp] theorem encodePairs_eq (ps : List HashPair) : encodePairs ps = ps.map HashPair.encode := by
  induction ps with
  | nil => rfl
  | cons p rest ih => rw [encodePairs, ih, List.map_cons]

@[simp] theorem encodeStatements_eq (ss : List Statement) :
    encodeStatements ss = ss.map Statement.encode := by
  induction ss with
  | nil => rfl
  | cons s rest ih => rw [encodeStatements, ih, List.map_cons]

theorem HashPair.encode_eq (p : HashPair) :
    p.encode = .object [("type", .string "HashPair"), ("key", .string p.key),
      ("value", p.value.encode), ("loc", p.loc.encode)] := by
  cases p
  rfl

theorem Hash.encode_eq (h : Hash) :
    h.encode = .object [("type", .string "Hash"), ("pairs", .array (h.pairs.map HashPair.encode)),
      ("loc", h.loc.encode)] := by
  cases h
  rw [Hash.encode, encodePairs_eq]

theorem Call.encodeFields_eq (c : Call) :
    c.encodeFields = [("path", c.path.encode), ("params", .array (c.params.map Expression.encode)),
      ("hash", c.hash.encode)] := by
  cases c
  rw [Call.encodeFields, encodeExpressions_eq]

/-- The keys of an element, without those that it has beside them. -/
def Element.encodeFields (e : Element) : Members :=
  [("tag", .string e.tag), ("attributes", .array (e.attributes.map Attribute.encode)),
    ("modifiers", .array (e.modifiers.map Modifier.encode)),
    ("children", .array (e.children.map Statement.encode)),
    ("blockParams", encodeStrings e.blockParams)] ++
    (e.selfClosing.elim [] (fun b => [("selfClosing", .bool b)]) ++ [("loc", e.loc.encode)])

theorem Element.encode_eq (e : Element) :
    e.encode = .object (("type", .string "ElementNode") :: (e.encodeFields ++ e.extra)) := by
  cases e
  simp [Element.encode, Element.encodeFields]

theorem Program.encode_eq (p : Program) :
    p.encode = .object [("type", .string "Program"), ("body", .array (p.body.map Statement.encode)),
      ("blockParams", encodeStrings p.blockParams), ("loc", p.loc.encode)] := by
  cases p
  rw [Program.encode, encodeStatements_eq]

def Block.encodeFields (b : Block) : Members :=
  b.call.encodeFields ++ [("program", b.program.encode),
    ("inverse", b.inverse.elim .null Program.encode), ("loc", b.loc.encode)]

theorem Block.encode_eq (b : Block) :
    b.encode = .object (("type", .string "BlockStatement") :: (b.encodeFields ++ b.extra)) := by
  obtain ⟨call, program, inverse, loc, extra⟩ := b
  cases inverse <;> simp [Block.encode, Block.encodeFields, encodeInverse]

def Mustache.encodeFields (m : Mustache) : Members :=
  m.call.encodeFields ++ [("escaped", .bool m.escaped), ("loc", m.loc.encode)]

theorem Mustache.encode_eq (m : Mustache) :
    m.encode = .object (("type", .string "MustacheStatement") :: (m.encodeFields ++ m.extra)) := by
  simp [Mustache.encode, Mustache.encodeFields]

/-! ### Further members -/

/-- The further members of a node, and the keys that are the node's own. -/
structure Extra where
  own : List String
  members : Members

/-- The further members use none of the keys of the node, and no object in them gives a key
twice. -/
def Extra.Proper (x : Extra) : Prop :=
  (∀ m ∈ x.members, m.1 ∉ x.own) ∧ (Value.object x.members).KeysDistinct

def Mustache.ownKeys : List String := ["type", "path", "params", "hash", "escaped", "loc"]

def Element.ownKeys : List String :=
  ["type", "tag", "attributes", "modifiers", "children", "blockParams", "selfClosing", "loc"]

def Block.ownKeys : List String :=
  ["type", "path", "params", "hash", "program", "inverse", "loc"]

def Mustache.extras (m : Mustache) : List Extra := [⟨Mustache.ownKeys, m.extra⟩]

def ConcatPart.extras : ConcatPart → List Extra
  | .text _ => []
  | .mustache m => m.extras

def AttributeValue.extras : AttributeValue → List Extra
  | .text _ => []
  | .mustache m => m.extras
  | .concat parts _ => parts.flatMap (·.extras)

mutual

def Statement.extras : Statement → List Extra
  | .element { attributes, children, extra, .. } =>
      ⟨Element.ownKeys, extra⟩ :: (attributes.flatMap (·.value.extras) ++ extrasOfStatements children)
  | .mustache m => m.extras
  | .block { program, inverse, extra, .. } =>
      ⟨Block.ownKeys, extra⟩ :: (program.extras ++ extrasOfInverse inverse)
  | .text _ | .comment _ | .mustacheComment _ => []

def extrasOfStatements : List Statement → List Extra
  | [] => []
  | s :: rest => s.extras ++ extrasOfStatements rest

def Program.extras : Program → List Extra
  | { body, .. } => extrasOfStatements body

def extrasOfInverse : Option Program → List Extra
  | none => []
  | some p => p.extras

end

/-- The further members of the nodes of a document. -/
def Document.extras (d : Document) : List Extra := d.ast.extras

@[simp] theorem extrasOfStatements_eq (ss : List Statement) :
    extrasOfStatements ss = ss.flatMap (·.extras) := by
  induction ss with
  | nil => rfl
  | cons s rest ih => rw [extrasOfStatements, ih, List.flatMap_cons]

@[simp] theorem Program.extras_eq (p : Program) : p.extras = p.body.flatMap (·.extras) := by
  cases p
  rw [Program.extras, extrasOfStatements_eq]

@[simp] theorem Statement.extras_element (e : Element) :
    (Statement.element e).extras = ⟨Element.ownKeys, e.extra⟩ ::
      (e.attributes.flatMap (·.value.extras) ++ e.children.flatMap (·.extras)) := by
  cases e
  rw [Statement.extras, extrasOfStatements_eq]

@[simp] theorem Statement.extras_block (b : Block) :
    (Statement.block b).extras = ⟨Block.ownKeys, b.extra⟩ ::
      (b.program.extras ++ b.inverse.elim [] Program.extras) := by
  obtain ⟨call, program, inverse, loc, extra⟩ := b
  cases inverse <;> rfl

end CurlyTemplate
