import CurlyTemplate.Batch.Format
import CurlyTemplate.Batch.Inputs

/-!
# Runs over many documents

A run lowers the document in every input. Its results and its diagnostics are both in
the order of the inputs. Where results go to files, the first input with a result for a
file has it, and any later one is reported.
-/

namespace CurlyTemplate

namespace Batch

open Files (Disk Failure)

/-- The file for the result of an input, named after the input. -/
def Settings.outputPath (settings : Settings) (input : String) : Option String :=
  settings.outDir.map fun folder =>
    let stem := (Files.fileStem? input.toList).getD input.toList
    String.ofList
      (Files.withExtension (Files.join folder.toList stem) settings.format.extension.toList)

inductive InputFailure where
  | unreadable (failure : Failure)
  | noDocument (error : Decode.Error)
deriving Repr

def InputFailure.message (input : String) : InputFailure → String
  | .unreadable failure => s!"failed to read {input}: {failure.message}"
  | .noDocument error => s!"failed to transform {input}: {documentMessage error}"

structure TransformedFile where
  input : String
  output : String
deriving Repr, DecidableEq

/-- What a run comes to. -/
structure Outcome where
  files : List TransformedFile
  diagnostics : List String
deriving Repr, DecidableEq

namespace Outcome

def hasErrors (o : Outcome) : Bool := !o.diagnostics.isEmpty

def exitCode (o : Outcome) : Nat := if o.hasErrors then 1 else 0

/-- Puts a result in front. -/
def addFile (file : TransformedFile) (o : Outcome) : Outcome := { o with files := file :: o.files }

def addDiagnostic (diagnostic : String) (o : Outcome) : Outcome :=
  { o with diagnostics := diagnostic :: o.diagnostics }

end Outcome

/-- A file that has its input: the file and the input. -/
abbrev Reservation := String × String

/-- The input that has a file already. -/
def holder? (reserved : List Reservation) (path : String) : Option String :=
  (reserved.find? fun taken => Files.sameLocation taken.1.toList path.toList).map (·.2)

/-- The report of an input whose file has another input already. -/
def clashMessage (first input path : String) : String := s!"{first} and {input} both write {path}"

/-- Collects the results and failures of inputs, in order. -/
def collect (settings : Settings) :
    List Reservation → List (String × Except InputFailure String) → Outcome
  | _, [] => ⟨[], []⟩
  | reserved, (input, .error failure) :: rest =>
      (collect settings reserved rest).addDiagnostic (failure.message input)
  | reserved, (input, .ok output) :: rest =>
      match settings.outputPath input with
      | none => (collect settings reserved rest).addFile ⟨input, output⟩
      | some path =>
          match holder? reserved path with
          | some first =>
              (collect settings reserved rest).addDiagnostic (clashMessage first input path)
          | none => (collect settings ((path, input) :: reserved) rest).addFile ⟨input, output⟩

variable {m : Type → Type} [Monad m]

/-- Reads an input and lowers its document. -/
def transformFile (disk : Disk m) (settings : Settings) (input : String) :
    m (Except InputFailure String) := do
  match ← disk.readText input with
  | .error failure => pure (.error (.unreadable failure))
  | .ok text => pure ((transformText settings text).mapError .noDocument)

def perform (disk : Disk m) (settings : Settings) (inputs : List String) : m Outcome := do
  let results ← inputs.mapM fun input => do
    let result ← transformFile disk settings input
    pure (input, result)
  pure (collect settings [] results)

inductive EmitError where
  | createFolder (folder : String) (failure : Failure)
  | writeFile (path : String) (failure : Failure)
  | print (failure : Failure)
deriving Repr, DecidableEq

def EmitError.message : EmitError → String
  | .createFolder folder failure => s!"failed to create {folder}: {failure.message}"
  | .writeFile path failure => s!"failed to write {path}: {failure.message}"
  | .print failure => s!"failed to write output: {failure.message}"

/-- Makes a folder that may be there already. The folders around it are given from the
inside out; they are made only when one is missing. -/
def makeFolders (disk : Disk m) : List String → m (Except Failure Unit)
  | [] => pure (.ok ())
  | "" :: _ => pure (.ok ())
  | folder :: outer => do
      let settle (result : Except Failure Unit) : m (Except Failure Unit) :=
        match result with
        | .ok () => pure (.ok ())
        | .error failure => do
            if ← disk.isFolder folder then pure (.ok ()) else pure (.error failure)
      match ← disk.makeFolder folder with
      | .error .notFound =>
          match ← makeFolders disk outer with
          | .error failure => pure (.error failure)
          | .ok () => settle (← disk.makeFolder folder)
      | result => settle result

/-- Writes one result: to its file, or to the output with a line break behind it. -/
def emitFile (disk : Disk m) (settings : Settings) (file : TransformedFile) :
    m (Except EmitError Unit) := do
  match settings.outputPath file.input with
  | some path => return (← disk.writeText path file.output).mapError (.writeFile path)
  | none => return (← disk.print (file.output ++ "\n")).mapError .print

/-- Writes results in order, up to the first that cannot be written. -/
def emitFiles (disk : Disk m) (settings : Settings) :
    List TransformedFile → m (Except EmitError Unit)
  | [] => pure (.ok ())
  | file :: rest => do
      match ← emitFile disk settings file with
      | .error e => pure (.error e)
      | .ok () => emitFiles disk settings rest

/-- Makes the folder for the results, if they go to files, and writes them. -/
def emit (disk : Disk m) (settings : Settings) (o : Outcome) : m (Except EmitError Unit) := do
  match settings.outDir with
  | none => emitFiles disk settings o.files
  | some folder =>
      let outer := (Files.folders folder.toList).map String.ofList
      match ← makeFolders disk (folder :: outer) with
      | .error failure => pure (.error (.createFolder folder failure))
      | .ok () => emitFiles disk settings o.files

/-- What a program leaves behind: an exit code and lines of complaint. -/
structure Exit where
  code : Nat
  complaints : List String
deriving Repr, DecidableEq

def complaint (message : String) : String := "Error: " ++ message

/-- Lowers all inputs, writes the results and reports. Where the results could not be
written that alone is reported. -/
def transform (disk : Disk m) (settings : Settings) (inputs : List String) : m Exit := do
  let outcome ← perform disk settings inputs
  match ← emit disk settings outcome with
  | .error e => pure ⟨1, [complaint e.message]⟩
  | .ok () => pure ⟨outcome.exitCode, outcome.diagnostics.map complaint⟩

end Batch

end CurlyTemplate
