import CurlyTemplate.Batch.Run

/-!
# The command line

Options may stand before, between and behind the inputs, up to `--`. A value stands
behind its option or is attached to it: `--format=json`, `-f json`, `-fjson`, `-f=json`.
An option is given once at most, and a value of its own does not start with a dash
unless it is the dash alone. Arguments are taken in order: whoever asks for the version
gets it if all before it is in order.
-/

namespace CurlyTemplate

namespace Batch

inductive Command where
  | run (settings : Settings) (inputs : List String)
  | version
  | help
deriving Repr, DecidableEq

inductive ValueOption where
  | format
  | outDir
  | logLevel
deriving Repr, DecidableEq

structure Arguments where
  format : Option Format
  outDir : Option String
  pretty : Bool
  logLevel : Option String
  inputs : List String
deriving Repr, DecidableEq

namespace Arguments

def empty : Arguments := ⟨none, none, false, none, []⟩

/-- Gives an option its value, unless it has one or may not have this one. -/
def set (a : Arguments) (option : ValueOption) (value : String) : Option Arguments :=
  match option with
  | .format =>
      match a.format, Format.ofName? value with
      | none, some format => some { a with format := some format }
      | _, _ => none
  | .outDir =>
      match a.outDir with
      | none => some { a with outDir := some value }
      | some _ => none
  | .logLevel =>
      match a.logLevel with
      | none => some { a with logLevel := some value }
      | some _ => none

/-- Asks for lines, once. -/
def setPretty (a : Arguments) : Option Arguments :=
  if a.pretty then none else some { a with pretty := true }

/-- What complete arguments ask for. There must be an input. -/
def command? (a : Arguments) : Option Command :=
  if a.inputs.isEmpty then none
  else some (.run ⟨a.format.getD .json, a.outDir, a.pretty⟩ a.inputs)

end Arguments

inductive Word where
  | input (text : String)
  /-- An option that takes a value, with the value if it is attached. -/
  | option (option : ValueOption) (attached : Option String)
  | pretty
  | version
  | help
  /-- All arguments that follow are inputs. -/
  | inputsOnly
  | unknown
deriving Repr, DecidableEq

def longWord (text : List Char) : Word :=
  let name := String.ofList (text.takeWhile (· ≠ '='))
  let attached := match text.dropWhile (· ≠ '=') with
    | [] => none
    | _ :: value => some (String.ofList value)
  match name, attached with
  | "format", value => .option .format value
  | "out-dir", value => .option .outDir value
  | "log-level", value => .option .logLevel value
  | "pretty", none => .pretty
  | "version", none => .version
  | "help", none => .help
  | _, _ => .unknown

/-- A value attached to a short option; an equals sign between them is dropped. -/
def attachedValue : List Char → Option String
  | [] => none
  | '=' :: value => some (String.ofList value)
  | value => some (String.ofList value)

def shortWord : List Char → Word
  | 'f' :: value => .option .format (attachedValue value)
  | 'o' :: value => .option .outDir (attachedValue value)
  | 'V' :: _ => .version
  | 'h' :: _ => .help
  | _ => .unknown

def readWord (argument : String) : Word :=
  match argument.toList with
  | ['-', '-'] => .inputsOnly
  | '-' :: '-' :: text => longWord text
  | ['-'] => .input argument
  | '-' :: text => shortWord text
  | _ => .input argument

/-- Whether an argument can be the value of the option before it. -/
def isValue (argument : String) : Bool :=
  match argument.toList with
  | '-' :: _ :: _ => false
  | _ => true

/-- Reads arguments in order; `none` when they are rejected. -/
def readArguments : Arguments → List String → Option Command
  | a, [] => a.command?
  | a, argument :: rest =>
      match readWord argument with
      | .input text => readArguments { a with inputs := a.inputs ++ [text] } rest
      | .option option (some value) =>
          match a.set option value with
          | some a => readArguments a rest
          | none => none
      | .option option none =>
          match rest with
          | [] => none
          | value :: rest =>
              if isValue value then
                match a.set option value with
                | some a => readArguments a rest
                | none => none
              else none
      | .pretty =>
          match a.setPretty with
          | some a => readArguments a rest
          | none => none
      | .version => some .version
      | .help => some .help
      | .inputsOnly => ({ a with inputs := a.inputs ++ rest } : Arguments).command?
      | .unknown => none

/-- What arguments ask for; `none` when they are rejected. -/
def Command.ofArguments? (arguments : List String) : Option Command :=
  readArguments .empty arguments

def versionLine : String := "angle-bracket-polyfill 0.1.0\n"

def usageLine : String := "Usage: angle-bracket-polyfill [OPTIONS] <INPUT>..."

/-- The lines that tell how the program is called. -/
def helpText : String :=
  "\n".intercalate
    ["Rewrite angle-bracket invocations in template documents",
      "",
      usageLine,
      "",
      "Arguments:",
      "  <INPUT>...  Template document JSON files or glob patterns",
      "",
      "Options:",
      "  -f, --format <FORMAT>    Output format: the rewritten document as json, or template " ++
        "text [default: json] [possible values: json, template, hbs]",
      "  -o, --out-dir <DIR>      Write one file per input into DIR instead of stdout",
      "      --pretty             Pretty-print JSON output",
      "      --log-level <LEVEL>  Log filter (overrides RUST_LOG), e.g. debug or " ++
        "angle_bracket_polyfill=trace",
      "  -h, --help               Print help",
      "  -V, --version            Print version",
      ""]

/-- What is said when arguments are rejected. -/
def usageText : String :=
  "\n".intercalate [usageLine, "", "For more information, try '--help'.", ""]

def usageCode : Nat := 2

variable {m : Type → Type} [Monad m]

def Command.perform (disk : Files.Disk m) : Command → m Exit
  | .version => do
      let _ ← disk.print versionLine
      pure ⟨0, []⟩
  | .help => do
      let _ ← disk.print helpText
      pure ⟨0, []⟩
  | .run settings patterns => do
      match ← expandInputs disk patterns with
      | .error e => pure ⟨1, [complaint e.message]⟩
      | .ok inputs => transform disk settings inputs

end Batch

end CurlyTemplate
