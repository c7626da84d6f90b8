import CurlyTemplate.Document
import CurlyTemplate.Proofs.Json.Order

/-!
# Trees up to the order of further members

`ordered` puts the further members of elements, mustaches and blocks, and all members inside
these, in the order of their keys, and leaves all else in a tree as it is.
-/

namespace CurlyTemplate

open Json (orderedMembers)

def Mustache.ordered (m : Mustache) : Mustache := { m with extra := orderedMembers m.extra }

def ConcatPart.ordered : ConcatPart → ConcatPart
  | .text t => .text t
  | .mustache m => .mustache m.ordered

def AttributeValue.ordered : AttributeValue → AttributeValue
  | .text t => .text t
  | .mustache m => .mustache m.ordered
  | .concat parts loc => .concat (parts.map (·.ordered)) loc

def Attribute.ordered (a : Attribute) : Attribute := { a with value := a.value.ordered }

mutual

def Statement.ordered : Statement → Statement
  | .element e => .element e.ordered
  | .mustache m => .mustache m.ordered
  | .block b => .block b.ordered
  | .text t => .text t
  | .comment c => .comment c
  | .mustacheComment c => .mustacheComment c

def orderedStatements : List Statement → List Statement
  | [] => []
  | s :: rest => s.ordered :: orderedStatements rest

def Element.ordered : Element → Element
  | { tag, attributes, modifiers, children, blockParams, selfClosing, loc, extra } =>
      ⟨tag, attributes.map (·.ordered), modifiers, orderedStatements children, blockParams,
        selfClosing, loc, orderedMembers extra⟩

def Block.ordered : Block → Block
  | { call, program, inverse, loc, extra } =>
      ⟨call, program.ordered, orderedInverse inverse, loc, orderedMembers extra⟩

def orderedInverse : Option Program → Option Program
  | none => none
  | some p => some p.ordered

def Program.ordered : Program → Program
  | { body, blockParams, loc } => ⟨orderedStatements body, blockParams, loc⟩

end

/-- A document with all further members in the order of their keys. -/
def Document.ordered (d : Document) : Document := { d with ast := d.ast.ordered }

@[simp] theorem orderedStatements_eq (ss : List Statement) :
    orderedStatements ss = ss.map (·.ordered) := by
  induction ss with
  | nil => rfl
  | cons s rest ih => rw [orderedStatements, ih, List.map_cons]

@[simp] theorem orderedInverse_eq (inverse : Option Program) :
    orderedInverse inverse = inverse.map (·.ordered) := by
  cases inverse <;> rfl

theorem Program.ordered_eq (p : Program) :
    p.ordered = { p with body := p.body.map (·.ordered) } := by
  cases p
  rw [ordered, orderedStatements_eq]

theorem Element.ordered_eq (e : Element) :
    e.ordered = { e with
      attributes := e.attributes.map (·.ordered)
      children := e.children.map (·.ordered)
      extra := orderedMembers e.extra } := by
  cases e
  rw [ordered, orderedStatements_eq]

theorem Block.ordered_eq (b : Block) :
    b.ordered = { b with
      program := b.program.ordered
      inverse := b.inverse.map (·.ordered)
      extra := orderedMembers b.extra } := by
  cases b
  rw [ordered, orderedInverse_eq]

end CurlyTemplate
