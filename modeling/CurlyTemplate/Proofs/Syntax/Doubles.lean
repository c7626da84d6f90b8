import CurlyTemplate.Proofs.Syntax.Encoding

/-!
# Trees with other doubles

`mapDoubles g` replaces every double in a tree, in number literals and in further members,
by what `g` makes of it. The encoding of the tree changes in these numbers and in nothing
else (`Document.encode_mapDoubles`).
-/

namespace CurlyTemplate

open Json (Number Value Members)

variable {g : Float → Float}

namespace Json

def Number.mapDouble (g : Float → Float) : Number → Number
  | .int n => .int n
  | .float x => .float (g x)

/-- Members with other doubles. -/
def Members.mapDoubles (g : Float → Float) (members : Members) : Members :=
  members.map fun m => (m.1, m.2.mapNumbers (Number.mapDouble g))

section MapNumbers

variable {f : Number → Number}

@[simp] theorem Value.mapNumbers_null : Value.null.mapNumbers f = .null := rfl

@[simp] theorem Value.mapNumbers_bool (b : Bool) : (Value.bool b).mapNumbers f = .bool b := rfl

@[simp] theorem Value.mapNumbers_string (s : String) :
    (Value.string s).mapNumbers f = .string s := rfl

@[simp] theorem Value.mapNumbers_number (n : Number) :
    (Value.number n).mapNumbers f = .number (f n) := rfl

@[simp] theorem Value.mapNumbers_array (items : List Value) :
    (Value.array items).mapNumbers f = .array (items.map (·.mapNumbers f)) := by
  rw [mapNumbers, mapNumbersOfItems_eq]

@[simp] theorem Value.mapNumbers_object (members : Members) :
    (Value.object members).mapNumbers f =
      .object (members.map fun m => (m.1, m.2.mapNumbers f)) := by
  rw [mapNumbers, mapNumbersOfMembers_eq]

theorem Value.keysDistinct_mapNumbers (v : Value) (h : v.KeysDistinct) :
    (v.mapNumbers f).KeysDistinct := by
  induction v using Value.induction with
  | null | bool | number | string => exact trivial
  | array items ih =>
      rw [keysDistinct_array] at h
      rw [mapNumbers_array, keysDistinct_array, List.forall_mem_map]
      exact fun v hv => ih v hv (h v hv)
  | object members ih =>
      rw [keysDistinct_object] at h
      rw [mapNumbers_object, keysDistinct_object, List.forall_mem_map]
      refine ⟨?_, fun m hm => ih m hm (h.2 m hm)⟩
      simpa [Members.keys, Function.comp_def] using h.1

theorem Value.nesting_mapNumbers_le (v : Value) {n : Nat} (h : v.nesting ≤ n) :
    (v.mapNumbers f).nesting ≤ n := by
  induction v using Value.induction generalizing n with
  | null | bool | number | string => exact Nat.zero_le n
  | array items ih =>
      rw [nesting] at h
      obtain ⟨n, rfl⟩ := Nat.exists_eq_add_of_le' (Nat.le_of_add_left_le h)
      have hinner := nestingItems_le_iff.mp (Nat.le_of_add_le_add_right h)
      rw [mapNumbers_array, nesting, Nat.add_le_add_iff_right, nestingItems_le_iff,
        List.forall_mem_map]
      exact fun v hv => ih v hv (hinner v hv)
  | object members ih =>
      rw [nesting] at h
      obtain ⟨n, rfl⟩ := Nat.exists_eq_add_of_le' (Nat.le_of_add_left_le h)
      have hinner := nestingMembers_le_iff.mp (Nat.le_of_add_le_add_right h)
      rw [mapNumbers_object, nesting, Nat.add_le_add_iff_right, nestingMembers_le_iff,
        List.forall_mem_map]
      exact fun m hm => ih m hm (hinner m hm)

end MapNumbers

end Json

/-! ### Expressions -/

mutual

def Expression.mapDoubles (g : Float → Float) : Expression → Expression
  | .sub call loc => .sub (call.mapDoubles g) loc
  | .number value loc => .number (g value) loc
  | other => other

def Call.mapDoubles (g : Float → Float) : Call → Call
  | { path, params, hash } =>
      ⟨path.mapDoubles g, mapDoublesOfExpressions g params, hash.mapDoubles g⟩

def mapDoublesOfExpressions (g : Float → Float) : List Expression → List Expression
  | [] => []
  | e :: rest => e.mapDoubles g :: mapDoublesOfExpressions g rest

def Hash.mapDoubles (g : Float → Float) : Hash → Hash
  | { pairs, loc } => ⟨mapDoublesOfPairs g pairs, loc⟩

def mapDoublesOfPairs (g : Float → Float) : List HashPair → List HashPair
  | [] => []
  | p :: rest => p.mapDoubles g :: mapDoublesOfPairs g rest

def HashPair.mapDoubles (g : Float → Float) : HashPair → HashPair
  | { key, value, loc } => ⟨key, value.mapDoubles g, loc⟩

end

@[simp] theorem mapDoublesOfExpressions_eq (es : List Expression) :
    mapDoublesOfExpressions g es = es.map (·.mapDoubles g) := by
  induction es with
  | nil => rfl
  | cons e rest ih => rw [mapDoublesOfExpressions, ih, List.map_cons]

@[simp] theorem mapDoublesOfPairs_eq (ps : List HashPair) :
    mapDoublesOfPairs g ps = ps.map (·.mapDoubles g) := by
  induction ps with
  | nil => rfl
  | cons p rest ih => rw [mapDoublesOfPairs, ih, List.map_cons]

theorem Position.mapNumbers_encode (p : Position) :
    p.encode.mapNumbers (Number.mapDouble g) = p.encode := rfl

@[simp] theorem Span.mapNumbers_encode (s : Span) :
    s.encode.mapNumbers (Number.mapDouble g) = s.encode := by
  cases hs : s.source <;> simp [Span.encode, hs, Position.mapNumbers_encode]

@[simp] theorem mapNumbers_encodeStrings {f : Number → Number} (ss : List String) :
    (encodeStrings ss).mapNumbers f = encodeStrings ss := by
  simp [encodeStrings]

/-- The encodings of nodes with other doubles. -/
theorem map_encode_map {α : Type} {encode : α → Value} {change : α → α} {xs : List α}
    {f : Number → Number} (h : ∀ x ∈ xs, encode (change x) = (encode x).mapNumbers f) :
    (xs.map change).map encode = (xs.map encode).map (·.mapNumbers f) := by
  rw [List.map_map, List.map_map]
  exact List.map_congr_left h

theorem HashPair.encode_mapDoubles {p : HashPair}
    (h : (p.value.mapDoubles g).encode = p.value.encode.mapNumbers (Number.mapDouble g)) :
    (p.mapDoubles g).encode = p.encode.mapNumbers (Number.mapDouble g) := by
  cases p
  simp [encode_eq, mapDoubles, h]

theorem Call.encodeFields_mapDoubles_of {c : Call}
    (hpath : (c.path.mapDoubles g).encode = c.path.encode.mapNumbers (Number.mapDouble g))
    (hparams : ∀ e ∈ c.params,
      (e.mapDoubles g).encode = e.encode.mapNumbers (Number.mapDouble g))
    (hpairs : ∀ p ∈ c.hash.pairs,
      (p.value.mapDoubles g).encode = p.value.encode.mapNumbers (Number.mapDouble g)) :
    (c.mapDoubles g).encodeFields = Members.mapDoubles g c.encodeFields := by
  obtain ⟨path, params, ⟨pairs, loc⟩⟩ := c
  have hhash := map_encode_map fun p hp => HashPair.encode_mapDoubles (hpairs p hp)
  simp [encodeFields_eq, mapDoubles, Hash.mapDoubles, Hash.encode_eq, Members.mapDoubles, hpath,
    map_encode_map hparams, hhash]

theorem Expression.encode_mapDoubles (e : Expression) :
    (e.mapDoubles g).encode = e.encode.mapNumbers (Number.mapDouble g) := by
  induction e using Expression.induction with
  | path p => simp [mapDoubles, encode, Path.encodeFields]
  | sub call loc ihpath ihparams ihpairs =>
      have hcall := Call.encodeFields_mapDoubles_of ihpath ihparams ihpairs
      simp [mapDoubles, encode, hcall, Members.mapDoubles]
  | number value loc => simp [mapDoubles, encode, Number.mapDouble]
  | string | boolean | null | undefined => simp [mapDoubles, encode]

theorem Call.encodeFields_mapDoubles (c : Call) :
    (c.mapDoubles g).encodeFields = Members.mapDoubles g c.encodeFields :=
  encodeFields_mapDoubles_of c.path.encode_mapDoubles (fun e _ => e.encode_mapDoubles)
    fun p _ => p.value.encode_mapDoubles

/-! ### Statements -/

def Mustache.mapDoubles (g : Float → Float) (m : Mustache) : Mustache :=
  { m with call := m.call.mapDoubles g, extra := Members.mapDoubles g m.extra }

def Modifier.mapDoubles (g : Float → Float) (m : Modifier) : Modifier :=
  { m with call := m.call.mapDoubles g }

def ConcatPart.mapDoubles (g : Float → Float) : ConcatPart → ConcatPart
  | .text t => .text t
  | .mustache m => .mustache (m.mapDoubles g)

def AttributeValue.mapDoubles (g : Float → Float) : AttributeValue → AttributeValue
  | .text t => .text t
  | .mustache m => .mustache (m.mapDoubles g)
  | .concat parts loc => .concat (parts.map (·.mapDoubles g)) loc

def Attribute.mapDoubles (g : Float → Float) (a : Attribute) : Attribute :=
  { a with value := a.value.mapDoubles g }

mutual

def Statement.mapDoubles (g : Float → Float) : Statement → Statement
  | .element e => .element (e.mapDoubles g)
  | .mustache m => .mustache (m.mapDoubles g)
  | .block b => .block (b.mapDoubles g)
  | other => other

def mapDoublesOfStatements (g : Float → Float) : List Statement → List Statement
  | [] => []
  | s :: rest => s.mapDoubles g :: mapDoublesOfStatements g rest

def Element.mapDoubles (g : Float → Float) : Element → Element
  | { tag, attributes, modifiers, children, blockParams, selfClosing, loc, extra } =>
      ⟨tag, attributes.map (·.mapDoubles g), modifiers.map (·.mapDoubles g),
        mapDoublesOfStatements g children, blockParams, selfClosing, loc,
        Members.mapDoubles g extra⟩

def Block.mapDoubles (g : Float → Float) : Block → Block
  | { call, program, inverse, loc, extra } =>
      ⟨call.mapDoubles g, program.mapDoubles g, mapDoublesOfInverse g inverse, loc,
        Members.mapDoubles g extra⟩

def mapDoublesOfInverse (g : Float → Float) : Option Program → Option Program
  | none => none
  | some p => some (p.mapDoubles g)

def Program.mapDoubles (g : Float → Float) : Program → Program
  | { body, blockParams, loc } => ⟨mapDoublesOfStatements g body, blockParams, loc⟩

end

/-- A document with other doubles. -/
def Document.mapDoubles (g : Float → Float) (d : Document) : Document :=
  { d with ast := d.ast.mapDoubles g }

@[simp] theorem mapDoublesOfStatements_eq (ss : List Statement) :
    mapDoublesOfStatements g ss = ss.map (·.mapDoubles g) := by
  induction ss with
  | nil => rfl
  | cons s rest ih => rw [mapDoublesOfStatements, ih, List.map_cons]

theorem Mustache.encode_mapDoubles (m : Mustache) :
    (m.mapDoubles g).encode = m.encode.mapNumbers (Number.mapDouble g) := by
  simp [encode, mapDoubles, Call.encodeFields_mapDoubles, Members.mapDoubles]

theorem Modifier.encode_mapDoubles (m : Modifier) :
    (m.mapDoubles g).encode = m.encode.mapNumbers (Number.mapDouble g) := by
  simp [encode, mapDoubles, Call.encodeFields_mapDoubles, Members.mapDoubles]

theorem TextNode.mapNumbers_encode (t : TextNode) :
    t.encode.mapNumbers (Number.mapDouble g) = t.encode := by
  simp [encode]

theorem ConcatPart.encode_mapDoubles (part : ConcatPart) :
    (part.mapDoubles g).encode = part.encode.mapNumbers (Number.mapDouble g) := by
  cases part with
  | text t => exact t.mapNumbers_encode.symm
  | mustache m => exact m.encode_mapDoubles

theorem AttributeValue.encode_mapDoubles (value : AttributeValue) :
    (value.mapDoubles g).encode = value.encode.mapNumbers (Number.mapDouble g) := by
  cases value with
  | text t => exact t.mapNumbers_encode.symm
  | mustache m => exact m.encode_mapDoubles
  | concat parts loc =>
      have hparts := map_encode_map fun part (_ : part ∈ parts) => part.encode_mapDoubles (g := g)
      simp [encode, mapDoubles, hparts]

theorem Attribute.encode_mapDoubles (a : Attribute) :
    (a.mapDoubles g).encode = a.encode.mapNumbers (Number.mapDouble g) := by
  simp [encode, mapDoubles, AttributeValue.encode_mapDoubles]

theorem Program.encode_mapDoubles_of {p : Program}
    (h : ∀ s ∈ p.body, (s.mapDoubles g).encode = s.encode.mapNumbers (Number.mapDouble g)) :
    (p.mapDoubles g).encode = p.encode.mapNumbers (Number.mapDouble g) := by
  cases p
  simp [encode_eq, mapDoubles, map_encode_map h]

theorem Statement.encode_mapDoubles (s : Statement) :
    (s.mapDoubles g).encode = s.encode.mapNumbers (Number.mapDouble g) := by
  induction s using Statement.induction with
  | element e ih =>
      obtain ⟨tag, attributes, modifiers, children, blockParams, selfClosing, loc, extra⟩ := e
      have hattributes :=
        map_encode_map fun a (_ : a ∈ attributes) => a.encode_mapDoubles (g := g)
      have hmodifiers :=
        map_encode_map fun m (_ : m ∈ modifiers) => m.encode_mapDoubles (g := g)
      cases selfClosing <;>
        simp [mapDoubles, encode, Element.mapDoubles, Element.encode, map_encode_map ih,
          hattributes, hmodifiers, Members.mapDoubles]
  | mustache m => exact m.encode_mapDoubles
  | block b ihprogram ihinverse =>
      obtain ⟨call, program, inverse, loc, extra⟩ := b
      have hprogram := Program.encode_mapDoubles_of ihprogram
      have hinverse : encodeInverse (mapDoublesOfInverse g inverse) =
          (encodeInverse inverse).mapNumbers (Number.mapDouble g) := by
        cases inverse with
        | none => rfl
        | some p => exact Program.encode_mapDoubles_of (ihinverse p rfl)
      simp [mapDoubles, encode, Block.mapDoubles, Block.encode, hprogram, hinverse,
        Call.encodeFields_mapDoubles, Members.mapDoubles]
  | text t => exact t.mapNumbers_encode.symm
  | comment | mustacheComment => simp [mapDoubles, encode, Comment.encode]

theorem Document.encode_mapDoubles (d : Document) :
    (d.mapDoubles g).encode = d.encode.mapNumbers (Number.mapDouble g) := by
  have hast := Program.encode_mapDoubles_of fun s (_ : s ∈ d.ast.body) =>
    s.encode_mapDoubles (g := g)
  cases hname : d.moduleName <;> cases hcontents : d.contents <;>
    simp [encode, mapDoubles, hname, hcontents, hast]

/-! ### Further members -/

def Extra.mapDoubles (g : Float → Float) (x : Extra) : Extra :=
  { x with members := Members.mapDoubles g x.members }

theorem Extra.Proper.mapDoubles {x : Extra} (h : x.Proper) : (x.mapDoubles g).Proper := by
  refine ⟨?_, ?_⟩
  · exact List.forall_mem_map.mpr h.1
  · have hkeys := Value.keysDistinct_mapNumbers (f := Number.mapDouble g) _ h.2
    rwa [Value.mapNumbers_object] at hkeys

theorem Extra.forall_proper_map {extras : List Extra} (h : ∀ x ∈ extras, x.Proper) :
    ∀ x ∈ extras.map (Extra.mapDoubles g), x.Proper :=
  List.forall_mem_map.mpr fun x hx => (h x hx).mapDoubles

theorem flatMap_extras_map {α : Type} {extras : α → List Extra} {change : α → α} {xs : List α}
    (h : ∀ x ∈ xs, extras (change x) = (extras x).map (Extra.mapDoubles g)) :
    (xs.map change).flatMap extras = (xs.flatMap extras).map (Extra.mapDoubles g) := by
  rw [List.flatMap_map, List.map_flatMap]
  exact List.flatMap_congr h

theorem ConcatPart.extras_mapDoubles (part : ConcatPart) :
    (part.mapDoubles g).extras = part.extras.map (Extra.mapDoubles g) := by
  cases part <;> rfl

theorem AttributeValue.extras_mapDoubles (value : AttributeValue) :
    (value.mapDoubles g).extras = value.extras.map (Extra.mapDoubles g) := by
  cases value with
  | text | mustache => rfl
  | concat parts loc => exact flatMap_extras_map fun part _ => part.extras_mapDoubles

theorem Program.extras_mapDoubles_of {p : Program}
    (h : ∀ s ∈ p.body, (s.mapDoubles g).extras = s.extras.map (Extra.mapDoubles g)) :
    (p.mapDoubles g).extras = p.extras.map (Extra.mapDoubles g) := by
  cases p
  simp only [extras_eq, mapDoubles, mapDoublesOfStatements_eq]
  exact flatMap_extras_map h

theorem Statement.extras_mapDoubles (s : Statement) :
    (s.mapDoubles g).extras = s.extras.map (Extra.mapDoubles g) := by
  induction s using Statement.induction with
  | element e ih =>
      obtain ⟨tag, attributes, modifiers, children, blockParams, selfClosing, loc, extra⟩ := e
      have hattributes : (attributes.map (·.mapDoubles g)).flatMap (·.value.extras) =
          (attributes.flatMap (·.value.extras)).map (Extra.mapDoubles g) :=
        flatMap_extras_map fun a _ => a.value.extras_mapDoubles
      simp only [mapDoubles, Element.mapDoubles, mapDoublesOfStatements_eq, extras_element,
        hattributes, flatMap_extras_map ih, List.map_cons, List.map_append]
      rfl
  | mustache m => rfl
  | block b ihprogram ihinverse =>
      obtain ⟨call, program, inverse, loc, extra⟩ := b
      have hinverse : (mapDoublesOfInverse g inverse).elim [] Program.extras =
          (inverse.elim [] Program.extras).map (Extra.mapDoubles g) := by
        cases inverse with
        | none => rfl
        | some p => exact Program.extras_mapDoubles_of (ihinverse p rfl)
      simp only [mapDoubles, Block.mapDoubles, extras_block, Program.extras_mapDoubles_of ihprogram,
        hinverse, List.map_cons, List.map_append]
      rfl
  | text | comment | mustacheComment => rfl

theorem Document.extras_mapDoubles (d : Document) :
    (d.mapDoubles g).extras = d.extras.map (Extra.mapDoubles g) :=
  Program.extras_mapDoubles_of fun s _ => s.extras_mapDoubles

end CurlyTemplate
