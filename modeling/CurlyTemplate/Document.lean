import CurlyTemplate.Component.Lowering
import CurlyTemplate.Syntax.Decode
import CurlyTemplate.Syntax.Encode
import CurlyTemplate.Syntax.Printer

/-!
# Template documents

A document carries the tree of a template, and perhaps the text that the tree was
read from and the name of its module. The text serves only to tell how tags were
written.
-/

namespace CurlyTemplate

/-- What is known of a template beside its tree. -/
structure Options where
  contents : Option String
  moduleName : Option String
deriving Repr, DecidableEq

structure Document where
  moduleName : Option String
  contents : Option String
  ast : Program
deriving Repr, BEq

def Options.schema : Decode.Schema Options where
  name := "PolyfillOptions"
  fields :=
    [Decode.optionalField "contents" (Decode.optional Decode.string)
       fun o s => { s with contents := o },
     Decode.optionalField "moduleName" (Decode.optional Decode.string)
       fun o s => { s with moduleName := o }]
  blank := ⟨none, none⟩
  keep := none

/-- The options of a template as a value. -/
def Options.encode (o : Options) : Json.Value :=
  .object [("contents", o.contents.elim .null .string),
    ("moduleName", o.moduleName.elim .null .string)]

namespace Document

def schema (levels : Nat) : Decode.Schema Document where
  name := "TemplateDocument"
  fields :=
    [Decode.optionalField "moduleName" (Decode.optional Decode.string)
       fun o d => { d with moduleName := o },
     Decode.optionalField "contents" (Decode.optional Decode.string)
       fun o d => { d with contents := o },
     Decode.requiredField "ast" (Program.decode levels) fun p d => { d with ast := p }]
  blank := ⟨none, none, ⟨[], [], .synthetic⟩⟩
  keep := none

def encode (d : Document) : Json.Value :=
  .object (d.moduleName.elim [] (fun s => [("moduleName", .string s)]) ++
    d.contents.elim [] (fun s => [("contents", .string s)]) ++ [("ast", d.ast.encode)])

/-- Lowers the components of a template, with its own text at hand. -/
def lower (d : Document) : Document :=
  { d with ast := Component.lower (Source.ofText d.contents) d.ast }

end Document

/-- Decodes a text that comes in as a stream. Spaces alone may follow it. -/
def Decode.ofText {α : Type} (decode : Decode.Decoder α) (text : String) :
    Except Decode.Error α := do
  let (reading, behind) := Json.Reading.ofText Json.nestingLimit text
  let value ← decode .streamed reading
  Decode.sound behind
  pure value

namespace Document

def ofText (text : String) : Except Decode.Error Document :=
  Decode.ofText (schema Decode.levels).decode text

/-- Reads a document, lowers it and writes it. -/
def lowerText (text : String) : Except Decode.Error String := do
  let document ← ofText text
  pure document.lower.encode.compact

end Document

end CurlyTemplate
