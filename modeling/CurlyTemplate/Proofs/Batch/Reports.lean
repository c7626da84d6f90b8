import CurlyTemplate.Proofs.Batch.Accounts

/-!
# What a run reports

The results of a run are written in order, and the first that cannot be written ends it: then
the run has failed and tells of this failure alone (`Outcome.report`). Otherwise there is a line
for each diagnostic. So the exit code is right in every case, while the lines tell of all that
went wrong only as long as the results were written or nothing else went wrong.

How far the writing comes is any at all here. `emitting` is `emit` with an account of it.
-/

namespace CurlyTemplate

namespace Batch

open Files (Disk Failure Session Store storeDisk)

variable {settings : Settings}

/-- What goes wrong when the result of an input is written: the file for it, or the output. -/
inductive EmitError.Concerns (settings : Settings) (file : TransformedFile) : EmitError → Prop
  | writeFile {path : String} (failure : Failure)
      (goes : settings.outputPath file.input = some path) :
      Concerns settings file (.writeFile path failure)
  | print (failure : Failure) (goes : settings.outputPath file.input = none) :
      Concerns settings file (.print failure)

/-- How far the writing of some results comes. -/
inductive Emission (settings : Settings) : List TransformedFile → Type
  | complete (files : List TransformedFile) : Emission settings files
  /-- The folder for the results cannot be made. -/
  | noFolder (files : List TransformedFile) {folder : String} (failure : Failure)
      (goes : settings.outDir = some folder) : Emission settings files
  /-- One of the results cannot be written, and all before it are. -/
  | broken (written : List TransformedFile) {file : TransformedFile}
      (rest : List TransformedFile) {error : EmitError}
      (concerns : error.Concerns settings file) : Emission settings (written ++ file :: rest)

namespace Emission

variable {files : List TransformedFile}

/-- What has ended the writing. -/
def error? : Emission settings files → Option EmitError
  | complete _ => none
  | @noFolder _ _ folder failure _ => some (.createFolder folder failure)
  | @broken _ _ _ _ error _ => some error

/-- The results that are written. -/
def written : Emission settings files → List TransformedFile
  | complete files => files
  | noFolder _ _ _ => []
  | broken written _ _ => written

def result (emission : Emission settings files) : Except EmitError Unit :=
  match emission.error? with
  | none => .ok ()
  | some e => .error e

/-- The writing of some results behind one that is written. -/
def behind (file : TransformedFile) : Emission settings files → Emission settings (file :: files)
  | complete files => complete (file :: files)
  | noFolder files failure goes => noFolder (file :: files) failure goes
  | broken written rest concerns => broken (file :: written) rest concerns

@[simp] theorem result_behind (file : TransformedFile) (emission : Emission settings files) :
    (emission.behind file).result = emission.result := by
  cases emission <;> rfl

/-- Where nothing goes wrong all results are written, and where one cannot be written the
others are that stand before it. -/
theorem written_spec (emission : Emission settings files) :
    emission.written <+: files ∧ (emission.error? = none → emission.written = files) := by
  cases emission with
  | complete => exact ⟨List.prefix_refl _, fun _ => rfl⟩
  | noFolder => exact ⟨List.nil_prefix, nofun⟩
  | broken => exact ⟨List.prefix_append _ _, nofun⟩

end Emission

/-- The lines and the code that a run ends with. -/
def Outcome.report (o : Outcome) (emission : Emission settings o.files) : Exit :=
  match emission.error? with
  | some e => ⟨1, [complaint e.message]⟩
  | none => ⟨o.exitCode, o.diagnostics.map complaint⟩

namespace Outcome

theorem exitCode_eq_zero_iff (o : Outcome) : o.exitCode = 0 ↔ o.diagnostics = [] := by
  cases h : o.diagnostics <;> simp [exitCode, hasErrors, h]

theorem exitCode_le_one (o : Outcome) : o.exitCode ≤ 1 := by
  rw [exitCode]
  split
  · exact Nat.le_refl 1
  · exact Nat.zero_le 1

variable {o : Outcome} {emission : Emission settings o.files}

theorem report_of_error?_eq_none (h : emission.error? = none) :
    o.report emission = ⟨o.exitCode, o.diagnostics.map complaint⟩ := by
  rw [report, h]

theorem report_of_error?_eq_some {e : EmitError} (h : emission.error? = some e) :
    o.report emission = ⟨1, [complaint e.message]⟩ := by
  rw [report, h]

end Outcome

section Emit

variable {m : Type → Type} [Monad m]

/-- Writes a result: what goes wrong concerns it. -/
def emittingFile (disk : Disk m) (settings : Settings) (file : TransformedFile) :
    m (Option {e : EmitError // e.Concerns settings file}) :=
  match goes : settings.outputPath file.input with
  | some path => do
      match ← disk.writeText path file.output with
      | .ok () => pure none
      | .error failure => pure (some ⟨_, .writeFile failure goes⟩)
  | none => do
      match ← disk.print (file.output ++ "\n") with
      | .ok () => pure none
      | .error failure => pure (some ⟨_, .print failure goes⟩)

/-- Writes results in order. -/
def emittingFiles (disk : Disk m) (settings : Settings) :
    (files : List TransformedFile) → m (Emission settings files)
  | [] => pure (.complete [])
  | file :: rest => do
      match ← emittingFile disk settings file with
      | some e => pure (.broken [] rest e.2)
      | none => do
          let emission ← emittingFiles disk settings rest
          pure (emission.behind file)

/-- Makes the folder for the results, if they go to files, and writes them. -/
def emitting (disk : Disk m) (settings : Settings) (files : List TransformedFile) :
    m (Emission settings files) :=
  match goes : settings.outDir with
  | none => emittingFiles disk settings files
  | some folder => do
      let outer := (Files.folders folder.toList).map String.ofList
      match ← makeFolders disk (folder :: outer) with
      | .error failure => pure (.noFolder files failure goes)
      | .ok () => emittingFiles disk settings files

variable [LawfulMonad m] (disk : Disk m)

/-- An error that may have occurred, without what it concerns. -/
def settled {file : TransformedFile} :
    Option {e : EmitError // e.Concerns settings file} → Except EmitError Unit
  | none => .ok ()
  | some e => .error e.1

theorem emitFile_eq (settings : Settings) (file : TransformedFile) :
    emitFile disk settings file = settled <$> emittingFile disk settings file := by
  unfold emitFile emittingFile
  split
  · next path goes =>
      split
      · next path' goes' =>
          obtain rfl : path = path' := Option.some_inj.mp (goes.symm.trans goes')
          rw [map_bind]
          refine bind_congr fun result => ?_
          cases result <;> simp [settled, Except.mapError]
      · next goes' => cases goes.symm.trans goes'
  · next goes =>
      split
      · next path' goes' => cases goes.symm.trans goes'
      · rw [map_bind]
        refine bind_congr fun result => ?_
        cases result <;> simp [settled, Except.mapError]

theorem emitFiles_eq (settings : Settings) (files : List TransformedFile) :
    emitFiles disk settings files = Emission.result <$> emittingFiles disk settings files := by
  induction files with
  | nil =>
      rw [emitFiles, emittingFiles, map_pure]
      rfl
  | cons file rest ih =>
      rw [emitFiles, emitFile_eq, ih, emittingFiles, map_bind, bind_map_left]
      refine bind_congr fun failed => ?_
      cases failed with
      | some e =>
          rw [map_pure]
          rfl
      | none => simp [settled]

theorem emit_eq (settings : Settings) (o : Outcome) :
    emit disk settings o = Emission.result <$> emitting disk settings o.files := by
  unfold emit emitting
  split
  · next goes =>
      split
      · exact emitFiles_eq disk settings o.files
      · next folder goes' => cases goes.symm.trans goes'
  · next folder goes =>
      split
      · next goes' => cases goes.symm.trans goes'
      · next folder' goes' =>
          obtain rfl : folder = folder' := Option.some_inj.mp (goes.symm.trans goes')
          rw [map_bind]
          refine bind_congr fun made => ?_
          cases made with
          | error failure =>
              rw [map_pure]
              rfl
          | ok => exact emitFiles_eq disk settings o.files

theorem transform_eq_report (settings : Settings) (inputs : List String) :
    transform disk settings inputs = (do
      let results ← transformAll disk settings inputs
      let emission ← emitting disk settings (collect settings [] results.1).files
      pure ((collect settings [] results.1).report emission)) := by
  rw [transform, perform_eq_collect, bind_map_left]
  refine bind_congr fun results => ?_
  rw [emit_eq, bind_map_left]
  refine bind_congr fun emission => ?_
  rw [Emission.result, Outcome.report]
  cases emission.error? <;> rfl

end Emit

section Reports

variable {inputs : List String} {results : Results inputs}

/-- What a run tells of its outcome and of the writing of its results. -/
structure Reports (settings : Settings) (results : Results inputs) (o : Outcome)
    (emission : Emission settings o.files) (exit : Exit) : Prop where
  /-- There is a diagnostic for each input that failed or came too late for its file. -/
  accounts : ∃ fates, Accounts settings results o fates
  written : emission.error? = none → emission.written = o.files
  code_eq_zero_iff : exit.code = 0 ↔ o.diagnostics = [] ∧ emission.error? = none
  code_le_one : exit.code ≤ 1
  complaints_of_written : emission.error? = none → exit.complaints = o.diagnostics.map complaint
  /-- A failure in writing hides the diagnostics. -/
  complaints_of_error {e : EmitError} : emission.error? = some e →
    exit.complaints = [complaint e.message]
  all_reported_iff : exit.complaints =
      (o.diagnostics ++ emission.error?.toList.map EmitError.message).map complaint ↔
    o.diagnostics = [] ∨ emission.error? = none

theorem exists_accounts (settings : Settings) (results : Results inputs) :
    ∃ fates, Accounts settings results (collect settings [] results.1) fates := by
  obtain ⟨fates, hsettled, hcollect⟩ := exists_settled settings results.1 []
  refine ⟨fates, ?_⟩
  rw [show collect settings [] results.1 = Outcome.ofFates fates from hcollect]
  exact accounts_of_settled hsettled

theorem reports_report {o : Outcome} {fates : List Fate}
    (haccounts : Accounts settings results o fates) (emission : Emission settings o.files) :
    Reports settings results o emission (o.report emission) := by
  cases herror : emission.error? with
  | none =>
      rw [Outcome.report_of_error?_eq_none herror]
      exact {
        accounts := ⟨fates, haccounts⟩
        written := emission.written_spec.2
        code_eq_zero_iff := by simp [herror, Outcome.exitCode_eq_zero_iff]
        code_le_one := o.exitCode_le_one
        complaints_of_written := fun _ => rfl
        complaints_of_error := fun h => nomatch herror.symm.trans h
        all_reported_iff := by simp [herror] }
  | some e =>
      rw [Outcome.report_of_error?_eq_some herror]
      exact {
        accounts := ⟨fates, haccounts⟩
        written := emission.written_spec.2
        code_eq_zero_iff := by simp [herror]
        code_le_one := Nat.le_refl 1
        complaints_of_written := fun h => nomatch herror.symm.trans h
        complaints_of_error := fun h => by rw [Option.some_inj.mp (herror.symm.trans h)]
        all_reported_iff := by cases o.diagnostics <;> simp [herror] }

variable {m : Type → Type} [Monad m]

/-- A run lowers its inputs, writes the results and reports, and whatever comes of the first two,
its code is zero just when there is no diagnostic and all results are written. It tells of all
that went wrong just when the results are written or there is no diagnostic; else it tells of
the failure in writing alone. -/
theorem transform_reports [LawfulMonad m] (disk : Disk m) (settings : Settings)
    (inputs : List String) :
    transform disk settings inputs = (do
        let results ← transformAll disk settings inputs
        let emission ← emitting disk settings (collect settings [] results.1).files
        pure ((collect settings [] results.1).report emission)) ∧
      ∀ (results : Results inputs)
        (emission : Emission settings (collect settings [] results.1).files),
        Reports settings results (collect settings [] results.1) emission
          ((collect settings [] results.1).report emission) := by
  refine ⟨transform_eq_report disk settings inputs, fun results emission => ?_⟩
  obtain ⟨fates, haccounts⟩ := exists_accounts settings results
  exact reports_report haccounts emission

/-- The first result is written, the second one is not, and nothing is told of the third input. -/
theorem transform_reports_interrupted :
    let results : Results ["a.json", "b.json", "missing.json"] :=
      ⟨[("a.json", .ok "{{a}}"), ("b.json", .ok "{{b}}"),
        ("missing.json", .error (.unreadable .notFound))], rfl⟩
    let settings : Settings := ⟨.template, none, false⟩
    let o := collect settings [] results.1
    LawfulMonad (StateM Session) ∧
      o.diagnostics = ["failed to read missing.json: No such file or directory (os error 2)"] ∧
      ∃ emission : Emission settings o.files,
        emission.written = [⟨"a.json", "{{a}}"⟩] ∧
        Reports settings results o emission
          ⟨1, ["Error: failed to write output: Broken pipe (os error 32)"]⟩ := by
  intro results settings o
  let emission : Emission settings o.files :=
    .broken [⟨"a.json", "{{a}}"⟩] [] (.print (.other "Broken pipe (os error 32)") rfl)
  have hmain := (transform_reports storeDisk settings ["a.json", "b.json", "missing.json"]).2
    results emission
  exact ⟨inferInstance, by decide, emission, rfl, hmain⟩

/-- In a run on a store there is a line for each diagnostic, and one more if the results cannot be
written. -/
def ReportsAll (settings : Settings) (inputs : List String) (session : Session) : Prop :=
  let performed := (perform storeDisk settings inputs).run session
  let emitted := ((emit storeDisk settings performed.1).run performed.2).1
  ((transform storeDisk settings inputs).run session).1.complaints.length =
    performed.1.diagnostics.length + if emitted.isOk then 0 else 1

instance (settings : Settings) (inputs : List String) (session : Session) :
    Decidable (ReportsAll settings inputs session) :=
  inferInstanceAs (Decidable (_ = _))

/-- The folder for the results is a file, and the only input holds no document. -/
theorem not_reportsAll_blocked :
    ¬ ReportsAll ⟨.json, some "dist", false⟩ ["bad.json"]
      ⟨(Store.blank.put ["bad.json"] (.file "\x7b".toUTF8)).put ["dist"] (.file .empty), ""⟩ := by
  decide +kernel

end Reports

end Batch

end CurlyTemplate
