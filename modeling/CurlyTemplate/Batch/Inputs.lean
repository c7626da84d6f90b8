import CurlyTemplate.Files.Search

/-!
# Inputs of a run

An argument that is the location of something is an input as it stands; any other one
is a pattern and must find something. Each input counts once, where it came first.
-/

namespace CurlyTemplate

namespace Batch

open Files (Disk Failure Finding PatternError)

/-- What an argument comes to: something that is there, or what its pattern finds. -/
inductive Lookup where
  | existing
  | invalid (error : PatternError)
  | findings (found : List Finding)

/-- Why the inputs of a run could not be told. -/
inductive InputError where
  | invalidPattern (pattern : String) (error : PatternError)
  | unreadable (pattern location : String) (failure : Failure)
  | noMatch (pattern : String)
deriving Repr, DecidableEq

def InputError.message : InputError → String
  | .invalidPattern pattern error => s!"invalid glob pattern `{pattern}`: {error.message}"
  | .unreadable pattern location failure =>
      s!"failed to read glob match for `{pattern}`: {Files.unreadableMessage location failure}"
  | .noMatch pattern => s!"no input matches `{pattern}`"

/-- Adds an input that is not there yet. -/
def addInput (inputs : List String) (input : String) : List String :=
  if inputs.any fun old => Files.sameLocation old.toList input.toList then inputs
  else inputs ++ [input]

/-- Adds what a pattern found, up to the first folder that could not be read. -/
def addFindings (pattern : String) : List String → List Finding → Except InputError (List String)
  | inputs, [] => .ok inputs
  | inputs, .ok location :: rest => addFindings pattern (addInput inputs location) rest
  | _, .error (location, failure) :: _ => .error (.unreadable pattern location failure)

/-- Adds what an argument comes to. -/
def addLookup (pattern : String) (inputs : List String) : Lookup → Except InputError (List String)
  | .existing => .ok (addInput inputs pattern)
  | .invalid error => .error (.invalidPattern pattern error)
  | .findings [] => .error (.noMatch pattern)
  | .findings found => addFindings pattern inputs found

/-- The inputs that arguments come to, up to the first one that is in error. -/
def collectInputs : List String → List (String × Lookup) → Except InputError (List String)
  | inputs, [] => .ok inputs
  | inputs, (pattern, lookup) :: rest => do
      let inputs ← addLookup pattern inputs lookup
      collectInputs inputs rest

variable {m : Type → Type} [Monad m]

def lookup (disk : Disk m) (pattern : String) : m Lookup := do
  if ← disk.existsAt pattern then pure .existing
  else
    match ← Files.search disk pattern with
    | .error e => pure (.invalid e)
    | .ok found => pure (.findings found)

def expandInputs (disk : Disk m) (patterns : List String) :
    m (Except InputError (List String)) := do
  let lookups ← patterns.mapM fun pattern => do
    let l ← lookup disk pattern
    pure (pattern, l)
  pure (collectInputs [] lookups)

end Batch

end CurlyTemplate
