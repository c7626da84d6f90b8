import CurlyTemplate.Document

/-!
# Output formats

A lowered template is written as a JSON document or as the text of the template.
-/

namespace CurlyTemplate

namespace Batch

inductive Format where
  | json
  | template
deriving Repr, DecidableEq, Inhabited

namespace Format

def name : Format → String
  | .json => "json"
  | .template => "template"

/-- The extension of files in a format, without the dot. -/
def extension : Format → String
  | .json => "json"
  | .template => "hbs"

/-- The format with a name. Templates also go by their extension. -/
def ofName? : String → Option Format
  | "json" => some .json
  | "template" => some .template
  | "hbs" => some .template
  | _ => none

/-- The complaint about a name that no format has. -/
def unknownMessage (name : String) : String :=
  s!"unknown output format `{name}` (expected `json` or `template`)"

@[simp] theorem ofName?_name (format : Format) : ofName? format.name = some format := by
  cases format <;> rfl

@[simp] theorem ofName?_extension (format : Format) : ofName? format.extension = some format := by
  cases format <;> rfl

end Format

structure Settings where
  format : Format
  /-- The folder for the results, one file for each input; else all go to the output. -/
  outDir : Option String
  /-- Whether JSON is laid out on lines. -/
  pretty : Bool
deriving Repr, DecidableEq

def render (settings : Settings) (d : Document) : String :=
  match settings.format, settings.pretty with
  | .template, _ => d.ast.print
  | .json, true => d.encode.pretty
  | .json, false => d.encode.compact

def transformText (settings : Settings) (text : String) : Except Decode.Error String := do
  let document ← Document.ofText text
  pure (render settings document.lower)

/-- What is said of a text that holds no document. -/
def documentMessage (error : Decode.Error) : String :=
  "invalid template document: " ++ error.message

end Batch

end CurlyTemplate
