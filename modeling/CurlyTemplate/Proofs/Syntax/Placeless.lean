import CurlyTemplate.Proofs.Tree.Induction
import CurlyTemplate.Syntax.Build

/-!
# Trees without places

`placeless` gives every node of a tree the synthetic span and leaves all else as it is, the
further members included. On expressions it is an instance of `strip`, which in passing
changes the paths.
-/

namespace CurlyTemplate

/-! ### Expressions -/

mutual

/-- An expression without places, and with what `f` makes of each path. -/
def Expression.strip (f : Path → Path) : Expression → Expression
  | .path p => .path (f p)
  | .sub call _ => .sub (call.strip f) .synthetic
  | .string value _ => .string value .synthetic
  | .boolean value _ => .boolean value .synthetic
  | .number value _ => .number value .synthetic
  | .null _ => .null .synthetic
  | .undefined _ => .undefined .synthetic

def Call.strip (f : Path → Path) : Call → Call
  | { path, params, hash } => ⟨path.strip f, stripExpressions f params, hash.strip f⟩

def stripExpressions (f : Path → Path) : List Expression → List Expression
  | [] => []
  | e :: rest => e.strip f :: stripExpressions f rest

def Hash.strip (f : Path → Path) : Hash → Hash
  | { pairs, .. } => ⟨stripPairs f pairs, .synthetic⟩

def stripPairs (f : Path → Path) : List HashPair → List HashPair
  | [] => []
  | p :: rest => p.strip f :: stripPairs f rest

def HashPair.strip (f : Path → Path) : HashPair → HashPair
  | { key, value, .. } => ⟨key, value.strip f, .synthetic⟩

end

@[simp] theorem stripExpressions_eq (f : Path → Path) (es : List Expression) :
    stripExpressions f es = es.map (·.strip f) := by
  induction es with
  | nil => rfl
  | cons e rest ih => rw [stripExpressions, ih, List.map_cons]

@[simp] theorem stripPairs_eq (f : Path → Path) (ps : List HashPair) :
    stripPairs f ps = ps.map (·.strip f) := by
  induction ps with
  | nil => rfl
  | cons p rest ih => rw [stripPairs, ih, List.map_cons]

theorem Hash.strip_eq (f : Path → Path) (h : Hash) :
    h.strip f = ⟨h.pairs.map (·.strip f), .synthetic⟩ := by
  cases h
  rw [Hash.strip, stripPairs_eq]

theorem Call.strip_eq (f : Path → Path) (c : Call) :
    c.strip f = ⟨c.path.strip f, c.params.map (·.strip f), c.hash.strip f⟩ := by
  cases c
  rw [Call.strip, stripExpressions_eq]

theorem HashPair.strip_eq (f : Path → Path) (p : HashPair) :
    p.strip f = ⟨p.key, p.value.strip f, .synthetic⟩ := by
  cases p
  rfl

/-- Whether a call has arguments is no question of places. -/
@[simp] theorem Call.isBare_strip (f : Path → Path) (c : Call) : (c.strip f).isBare = c.isBare := by
  rw [Call.strip_eq, Hash.strip_eq, isBare, isBare, List.isEmpty_map, List.isEmpty_map]

def Path.placeless (p : Path) : Path := { p with loc := .synthetic }

def Expression.placeless (e : Expression) : Expression := e.strip Path.placeless

def Call.placeless (c : Call) : Call := c.strip Path.placeless

def Hash.placeless (h : Hash) : Hash := h.strip Path.placeless

def HashPair.placeless (p : HashPair) : HashPair := p.strip Path.placeless

/-! ### Statements -/

def Mustache.placeless (m : Mustache) : Mustache :=
  { m with call := m.call.placeless, loc := .synthetic }

def Modifier.placeless (m : Modifier) : Modifier := ⟨m.call.placeless, .synthetic⟩

def TextNode.placeless (t : TextNode) : TextNode := { t with loc := .synthetic }

def Comment.placeless (c : Comment) : Comment := { c with loc := .synthetic }

def ConcatPart.placeless : ConcatPart → ConcatPart
  | .text t => .text t.placeless
  | .mustache m => .mustache m.placeless

def AttributeValue.placeless : AttributeValue → AttributeValue
  | .text t => .text t.placeless
  | .mustache m => .mustache m.placeless
  | .concat parts _ => .concat (parts.map (·.placeless)) .synthetic

def Attribute.placeless (a : Attribute) : Attribute :=
  { a with value := a.value.placeless, loc := .synthetic }

mutual

def Statement.placeless : Statement → Statement
  | .element e => .element e.placeless
  | .mustache m => .mustache m.placeless
  | .block b => .block b.placeless
  | .text t => .text t.placeless
  | .comment c => .comment c.placeless
  | .mustacheComment c => .mustacheComment c.placeless

def placelessStatements : List Statement → List Statement
  | [] => []
  | s :: rest => s.placeless :: placelessStatements rest

def Element.placeless : Element → Element
  | { tag, attributes, modifiers, children, blockParams, selfClosing, extra, .. } =>
      ⟨tag, attributes.map (·.placeless), modifiers.map (·.placeless),
        placelessStatements children, blockParams, selfClosing, .synthetic, extra⟩

def Block.placeless : Block → Block
  | { call, program, inverse, extra, .. } =>
      ⟨call.placeless, program.placeless, placelessInverse inverse, .synthetic, extra⟩

def placelessInverse : Option Program → Option Program
  | none => none
  | some p => some p.placeless

/-- A tree in which every span is synthetic. -/
def Program.placeless : Program → Program
  | { body, blockParams, .. } => ⟨placelessStatements body, blockParams, .synthetic⟩

end

@[simp] theorem placelessStatements_eq (ss : List Statement) :
    placelessStatements ss = ss.map (·.placeless) := by
  induction ss with
  | nil => rfl
  | cons s rest ih => rw [placelessStatements, ih, List.map_cons]

@[simp] theorem placelessInverse_eq (inverse : Option Program) :
    placelessInverse inverse = inverse.map (·.placeless) := by
  cases inverse <;> rfl

theorem Program.placeless_eq (p : Program) :
    p.placeless = ⟨p.body.map (·.placeless), p.blockParams, .synthetic⟩ := by
  cases p
  rw [placeless, placelessStatements_eq]

theorem Element.placeless_eq (e : Element) :
    e.placeless = ⟨e.tag, e.attributes.map (·.placeless), e.modifiers.map (·.placeless),
      e.children.map (·.placeless), e.blockParams, e.selfClosing, .synthetic, e.extra⟩ := by
  cases e
  rw [placeless, placelessStatements_eq]

theorem Block.placeless_eq (b : Block) :
    b.placeless = ⟨b.call.placeless, b.program.placeless, b.inverse.map (·.placeless), .synthetic,
      b.extra⟩ := by
  cases b
  rw [placeless, placelessInverse_eq]

/-! ### Built nodes -/

@[simp] theorem Build.placeless_path (written : String) :
    (Build.path written).placeless = Build.path written := rfl

@[simp] theorem Build.placeless_hash (pairs : List HashPair) :
    (Build.hash pairs).placeless = Build.hash (pairs.map (·.placeless)) :=
  Hash.strip_eq _ _

@[simp] theorem Build.placeless_pair (key : String) (value : Expression) :
    (Build.pair key value).placeless = Build.pair key value.placeless := rfl

@[simp] theorem Build.placeless_sub (path : Expression) (params : List Expression) (hash : Hash) :
    (Build.sub path params hash).placeless =
      Build.sub path.placeless (params.map (·.placeless)) hash.placeless := by
  exact congrArg (Expression.sub · .synthetic) (Call.strip_eq _ _)

end CurlyTemplate
