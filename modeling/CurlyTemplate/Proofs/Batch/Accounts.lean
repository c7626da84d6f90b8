import CurlyTemplate.Batch.Run
import CurlyTemplate.Files.Store
import CurlyTemplate.Proofs.Batch.Labelled
import Mathlib.Data.List.Basic
import Mathlib.Data.List.Pairwise

/-!
# The accounts of a run

Each input of a run comes to one of two things, a file or a diagnostic, and the outcome of the
run is the list of these, taken apart (`Outcome.ofFates`). Which of them it is depends only on
the result of the input and on the inputs before it that have files (`Settings.Settles`). A
collection under way is told by those inputs: the files it has reserved are theirs
(`Settings.reservations`).

The results are any at all here. Those of `perform` are the results of the inputs, each with
its input, in order (`transformAll`).
-/

namespace CurlyTemplate

namespace Batch

open Files (Disk Session storeDisk)

namespace Settings

variable {settings : Settings} {folder input other : String}

/-- The results of two inputs go to the same file. -/
def SameFile (settings : Settings) (input other : String) : Prop :=
  ∃ path ∈ settings.outputPath input, ∃ path' ∈ settings.outputPath other,
    Files.sameLocation path.toList path'.toList = true

theorem exists_outputPath (h : settings.outDir = some folder) (input : String) :
    ∃ path, settings.outputPath input = some path := by
  rw [outputPath, h]
  exact ⟨_, rfl⟩

theorem outputPath_eq_none (h : settings.outDir = none) (input : String) :
    settings.outputPath input = none := by
  rw [outputPath, h, Option.map_none]

theorem SameFile.symm (h : settings.SameFile input other) :
    settings.SameFile other input := by
  obtain ⟨path, hpath, path', hpath', hsame⟩ := h
  obtain ⟨habsolute, hcomponents⟩ := Files.sameLocation_iff.mp hsame
  exact ⟨path', hpath', path, hpath,
    Files.sameLocation_iff.mpr ⟨habsolute.symm, hcomponents.symm⟩⟩

theorem SameFile.trans {third : String} (h : settings.SameFile input other)
    (h' : settings.SameFile other third) : settings.SameFile input third := by
  obtain ⟨path, hpath, middle, hmiddle, hsame⟩ := h
  obtain ⟨middle', hmiddle', path', hpath', hsame'⟩ := h'
  obtain rfl : middle = middle' := Option.some_inj.mp (hmiddle.symm.trans hmiddle')
  obtain ⟨habsolute, hcomponents⟩ := Files.sameLocation_iff.mp hsame
  obtain ⟨habsolute', hcomponents'⟩ := Files.sameLocation_iff.mp hsame'
  exact ⟨path, hpath, path', hpath', Files.sameLocation_iff.mpr
    ⟨habsolute.trans habsolute', hcomponents.trans hcomponents'⟩⟩

/-- Different files are apart where there is a folder for them. -/
theorem exists_paths_of_not_sameFile (hfolder : settings.outDir = some folder)
    (h : ¬ settings.SameFile input other) :
    ∃ path path', settings.outputPath input = some path ∧
      settings.outputPath other = some path' ∧
      Files.sameLocation path.toList path'.toList = false := by
  obtain ⟨path, hpath⟩ := exists_outputPath hfolder input
  obtain ⟨path', hpath'⟩ := exists_outputPath hfolder other
  refine ⟨path, path', hpath, hpath', Bool.eq_false_iff.mpr fun hsame => ?_⟩
  exact h ⟨path, hpath, path', hpath', hsame⟩

theorem not_sameFile_of_outDir_eq_none (h : settings.outDir = none) (input other : String) :
    ¬ settings.SameFile input other := by
  rintro ⟨path, hpath, _⟩
  rw [outputPath_eq_none h] at hpath
  cases hpath

/-- No two results go to the same file. -/
def Apart (settings : Settings) (files : List TransformedFile) : Prop :=
  files.Pairwise fun a b => ¬ settings.SameFile a.input b.input

theorem Apart.eq_of_sameFile {files : List TransformedFile} {a b : TransformedFile}
    (h : settings.Apart files) (ha : a ∈ files) (hb : b ∈ files)
    (hsame : settings.SameFile a.input input) (hsame' : settings.SameFile b.input input) :
    a = b := by
  by_contra hne
  have : Std.Symm fun a b : TransformedFile => ¬ settings.SameFile a.input b.input :=
    ⟨fun _ _ hnot hother => hnot hother.symm⟩
  exact List.Pairwise.forall h ha hb hne (hsame.trans hsame'.symm)

end Settings

/-- What an input comes to. -/
inductive Fate where
  | file (file : TransformedFile)
  | diagnostic (diagnostic : String)
deriving Repr, DecidableEq

namespace Fate

def file? : Fate → Option TransformedFile
  | file f => some f
  | diagnostic _ => none

def diagnostic? : Fate → Option String
  | file _ => none
  | diagnostic text => some text

end Fate

namespace Outcome

/-- The files and the diagnostics that inputs come to, each in the order of the inputs. -/
def ofFates (fates : List Fate) : Outcome :=
  ⟨fates.filterMap Fate.file?, fates.filterMap Fate.diagnostic?⟩

/-- Puts what an input comes to in front. -/
def addFate (o : Outcome) : Fate → Outcome
  | .file file => o.addFile file
  | .diagnostic diagnostic => o.addDiagnostic diagnostic

theorem addFate_ofFates (fate : Fate) (fates : List Fate) :
    (ofFates fates).addFate fate = ofFates (fate :: fates) := by
  cases fate <;> rfl

theorem files_ofFates_cons (fate : Fate) (fates : List Fate) :
    (ofFates (fate :: fates)).files = fate.file?.toList ++ (ofFates fates).files := by
  cases fate <;> rfl

/-- Every input comes to one thing, so that none is left out and none counts twice. -/
theorem length_add_length_ofFates (fates : List Fate) :
    (ofFates fates).files.length + (ofFates fates).diagnostics.length = fates.length := by
  induction fates with
  | nil => rfl
  | cons fate fates ih =>
      rw [← addFate_ofFates, List.length_cons, ← ih]
      cases fate <;> simp only [addFate, addFile, addDiagnostic, List.length_cons] <;> omega

end Outcome

/-- The files that the first inputs have. -/
def filesBefore (fates : List Fate) (i : Nat) : List TransformedFile :=
  (Outcome.ofFates (fates.take i)).files

theorem filesBefore_cons_succ (fate : Fate) (fates : List Fate) (i : Nat) :
    filesBefore (fate :: fates) (i + 1) = fate.file?.toList ++ filesBefore fates i := by
  rw [filesBefore, List.take_succ_cons, Outcome.files_ofFates_cons, filesBefore]

theorem filesBefore_sublist (fates : List Fate) (i : Nat) :
    (filesBefore fates i).Sublist (Outcome.ofFates fates).files :=
  (List.take_sublist i fates).filterMap _

/-- The results of inputs, each behind its input. -/
abbrev Results (inputs : List String) :=
  {results : List (String × Except InputFailure String) // results.map Prod.fst = inputs}

theorem Results.length_eq {inputs : List String} (results : Results inputs) :
    results.1.length = inputs.length := by
  simpa using congrArg List.length results.2

section Collect

variable {settings : Settings} {earlier : List TransformedFile} {input path : String}

/-- What an input comes to when the inputs before it have these files. -/
inductive Settings.Settles (settings : Settings) (earlier : List TransformedFile)
    (input : String) : Except InputFailure String → Fate → Prop
  | failed (failure : InputFailure) :
      Settles settings earlier input (.error failure) (.diagnostic (failure.message input))
  | written {output : String} (free : ∀ file ∈ earlier, ¬ settings.SameFile file.input input) :
      Settles settings earlier input (.ok output) (.file ⟨input, output⟩)
  | reported {output path : String} {first : TransformedFile} (mem : first ∈ earlier)
      (same : settings.SameFile first.input input)
      (goes : settings.outputPath input = some path) :
      Settles settings earlier input (.ok output)
        (.diagnostic (clashMessage first.input input path))

/-- What inputs with these results come to, one after the other. -/
inductive Settings.Settled (settings : Settings) :
    List TransformedFile → List (String × Except InputFailure String) → List Fate → Prop
  | nil {earlier : List TransformedFile} : Settled settings earlier [] []
  | cons {earlier : List TransformedFile} {input : String}
      {result : Except InputFailure String} {fate : Fate}
      {rest : List (String × Except InputFailure String)} {fates : List Fate}
      (head : settings.Settles earlier input result fate)
      (tail : Settled settings (earlier ++ fate.file?.toList) rest fates) :
      Settled settings earlier ((input, result) :: rest) (fate :: fates)

/-- The files that are taken once inputs have files, the latest in front. -/
def Settings.reservations (settings : Settings) (files : List TransformedFile) :
    List Reservation :=
  files.reverse.filterMap fun file =>
    (settings.outputPath file.input).map fun path => (path, file.input)

theorem mem_reservations {taken : Reservation} :
    taken ∈ settings.reservations earlier ↔
      ∃ file ∈ earlier, settings.outputPath file.input = some taken.1 ∧ file.input = taken.2 := by
  simp [Settings.reservations, Prod.ext_iff]

theorem reservations_concat (settings : Settings) (files : List TransformedFile)
    (file : TransformedFile) :
    settings.reservations (files ++ [file]) =
      ((settings.outputPath file.input).map fun path => (path, file.input)).toList ++
        settings.reservations files := by
  rw [Settings.reservations, List.reverse_concat, List.filterMap_cons, Settings.reservations]
  cases settings.outputPath file.input <;> rfl

/-- A file is free as long as no earlier input has it. -/
theorem free_of_holder?_eq_none (hpath : settings.outputPath input = some path)
    (h : holder? (settings.reservations earlier) path = none) :
    ∀ file ∈ earlier, ¬ settings.SameFile file.input input := by
  rintro file hfile ⟨path₁, h₁, path₂, h₂, hsame⟩
  have htaken : (path₁, file.input) ∈ settings.reservations earlier :=
    mem_reservations.mpr ⟨file, hfile, h₁, rfl⟩
  rw [holder?, Option.map_eq_none_iff, List.find?_eq_none] at h
  obtain rfl : path = path₂ := Option.some_inj.mp (hpath.symm.trans h₂)
  exact h _ htaken hsame

theorem exists_of_holder?_eq_some {first : String}
    (hpath : settings.outputPath input = some path)
    (h : holder? (settings.reservations earlier) path = some first) :
    ∃ file ∈ earlier, settings.SameFile file.input input ∧ file.input = first := by
  obtain ⟨taken, hfind, rfl⟩ := Option.map_eq_some_iff.mp h
  obtain ⟨file, hfile, htaken, hinput⟩ := mem_reservations.mp (List.mem_of_find?_eq_some hfind)
  have hsame : Files.sameLocation taken.1.toList path.toList = true := by
    simpa using List.find?_some hfind
  exact ⟨file, hfile, ⟨taken.1, htaken, path, hpath, hsame⟩, hinput⟩

/-- An input is settled by those before it that have files, and the collection goes on with
them and with its own file if it has one. -/
theorem collect_cons (settings : Settings) (earlier : List TransformedFile) (input : String)
    (result : Except InputFailure String) (rest : List (String × Except InputFailure String)) :
    ∃ fate, settings.Settles earlier input result fate ∧
      collect settings (settings.reservations earlier) ((input, result) :: rest) =
        (collect settings (settings.reservations (earlier ++ fate.file?.toList)) rest).addFate
          fate := by
  cases result with
  | error failure =>
      refine ⟨_, .failed failure, ?_⟩
      rw [Fate.file?, Option.toList_none, List.append_nil]
      rfl
  | ok output =>
      cases hpath : settings.outputPath input with
      | none =>
          refine ⟨.file ⟨input, output⟩, .written fun file _ => ?_, ?_⟩
          · -- without a folder no input has a file, so that none is taken
            rintro ⟨_, _, _, hnone, _⟩
            cases hpath.symm.trans hnone
          · simp only [collect, hpath, Fate.file?, Option.toList_some, reservations_concat,
              Option.map_none, Option.toList_none, List.nil_append, Outcome.addFate]
      | some path =>
          cases hholder : holder? (settings.reservations earlier) path with
          | some first =>
              obtain ⟨file, hfile, hsame, rfl⟩ := exists_of_holder?_eq_some hpath hholder
              refine ⟨_, .reported hfile hsame hpath, ?_⟩
              simp only [collect, hpath, hholder, Fate.file?, Option.toList_none,
                List.append_nil, Outcome.addFate]
          | none =>
              refine ⟨_, .written (free_of_holder?_eq_none hpath hholder), ?_⟩
              simp only [collect, hpath, hholder, Fate.file?, Option.toList_some,
                reservations_concat, Option.map_some, List.singleton_append, Outcome.addFate]

/-- A collection comes to what its inputs come to. -/
theorem exists_settled (settings : Settings)
    (results : List (String × Except InputFailure String)) (earlier : List TransformedFile) :
    ∃ fates, settings.Settled earlier results fates ∧
      collect settings (settings.reservations earlier) results = Outcome.ofFates fates := by
  induction results generalizing earlier with
  | nil => exact ⟨[], .nil, rfl⟩
  | cons head rest ih =>
      obtain ⟨input, result⟩ := head
      obtain ⟨fate, hfate, hcollect⟩ := collect_cons settings earlier input result rest
      obtain ⟨fates, hfates, hrest⟩ := ih (earlier ++ fate.file?.toList)
      exact ⟨fate :: fates, .cons hfate hfates,
        by rw [hcollect, hrest, Outcome.addFate_ofFates]⟩

namespace Settings

variable {results : List (String × Except InputFailure String)} {fates : List Fate}

theorem Settled.length_eq (h : settings.Settled earlier results fates) :
    fates.length = results.length := by
  induction h with
  | nil => rfl
  | cons _ _ ih => rw [List.length_cons, List.length_cons, ih]

/-- Each input is settled by the files of the inputs before it. -/
theorem Settled.getElem? (h : settings.Settled earlier results fates) {i : Nat}
    {result : Except InputFailure String} (hi : results[i]? = some (input, result)) :
    ∃ fate, fates[i]? = some fate ∧
      settings.Settles (earlier ++ filesBefore fates i) input result fate := by
  induction h generalizing i with
  | nil => simp at hi
  | @cons earlier first firstResult fate rest fates head tail ih =>
      cases i with
      | zero =>
          obtain ⟨rfl, rfl⟩ : first = input ∧ firstResult = result := by simpa using hi
          exact ⟨fate, rfl, by simpa [filesBefore, Outcome.ofFates] using head⟩
      | succ i =>
          obtain ⟨fate', hfate', hsettles⟩ := ih hi
          refine ⟨fate', hfate', ?_⟩
          rwa [filesBefore_cons_succ, ← List.append_assoc]

theorem Settles.free {result : Except InputFailure String} {file : TransformedFile}
    (h : settings.Settles earlier input result (.file file)) :
    ∀ other ∈ earlier, ¬ settings.SameFile other.input file.input := by
  cases h with
  | written free => exact free

/-- No file is given away twice. -/
theorem Settled.apart (h : settings.Settled earlier results fates)
    (hearlier : settings.Apart earlier) :
    settings.Apart (earlier ++ (Outcome.ofFates fates).files) := by
  induction h with
  | nil => simpa [Outcome.ofFates] using hearlier
  | @cons earlier input result fate rest fates head tail ih =>
      rw [Outcome.files_ofFates_cons, ← List.append_assoc]
      apply ih
      cases fate with
      | diagnostic text => simpa [Fate.file?] using hearlier
      | file file =>
          have hfree := head.free
          refine List.pairwise_append.mpr ⟨hearlier, List.pairwise_singleton _ _, ?_⟩
          intro other hother file' hfile'
          obtain rfl := List.mem_singleton.mp hfile'
          exact hfree other hother

theorem Settled.failed (h : settings.Settled earlier results fates) {i : Nat}
    {failure : InputFailure} (hi : results[i]? = some (input, .error failure)) :
    fates[i]? = some (.diagnostic (failure.message input)) := by
  obtain ⟨fate, hfate, hsettles⟩ := h.getElem? hi
  cases hsettles
  exact hfate

theorem Settled.written (h : settings.Settled earlier results fates) {i : Nat} {output : String}
    (hi : results[i]? = some (input, .ok output))
    (hfree : ∀ file ∈ earlier ++ filesBefore fates i, ¬ settings.SameFile file.input input) :
    fates[i]? = some (.file ⟨input, output⟩) := by
  obtain ⟨fate, hfate, hsettles⟩ := h.getElem? hi
  cases hsettles with
  | written => exact hfate
  | reported hmem hsame => exact absurd hsame (hfree _ hmem)

theorem Settled.message (h : settings.Settled earlier results fates)
    (hearlier : settings.Apart earlier) {i : Nat}
    {output : String} {file : TransformedFile} (hi : results[i]? = some (input, .ok output))
    (hfile : file ∈ earlier ++ filesBefore fates i)
    (hsame : settings.SameFile file.input input) :
    ∃ path ∈ settings.outputPath input,
      fates[i]? = some (.diagnostic (clashMessage file.input input path)) := by
  obtain ⟨fate, hfate, hsettles⟩ := h.getElem? hi
  cases hsettles with
  | written hfree => exact absurd hsame (hfree file hfile)
  | @reported _ path first hmem hfirst hpath =>
      have hsub := (filesBefore_sublist fates i).append_left earlier
      have hbefore : settings.Apart (earlier ++ filesBefore fates i) :=
        (h.apart hearlier).sublist hsub
      obtain rfl := hbefore.eq_of_sameFile hfile hmem hsame hfirst
      exact ⟨path, hpath, hfate⟩

end Settings

end Collect

section Accounts

variable {settings : Settings} {inputs : List String} {results : Results inputs}
  {fates : List Fate}

/-- The accounts of a run over inputs with these results: what each input comes to. -/
structure Accounts (settings : Settings) (results : Results inputs) (o : Outcome)
    (fates : List Fate) : Prop where
  /-- Each input comes to one thing. -/
  length_eq : fates.length = inputs.length
  /-- The files and the diagnostics are these things, both in the order of the inputs. -/
  outcome_eq : o = Outcome.ofFates fates
  total : o.files.length + o.diagnostics.length = inputs.length
  /-- A failure is reported and takes no file. -/
  failed {i : Nat} {input : String} {failure : InputFailure} :
    results.1[i]? = some (input, .error failure) →
      fates[i]? = some (.diagnostic (failure.message input))
  written {i : Nat} {input output : String} :
    results.1[i]? = some (input, .ok output) →
      (∀ file ∈ filesBefore fates i, ¬ settings.SameFile file.input input) →
      fates[i]? = some (.file ⟨input, output⟩)
  reported_iff {i : Nat} {input output : String} :
    results.1[i]? = some (input, .ok output) →
      ((∃ text, fates[i]? = some (.diagnostic text)) ↔
        ∃ file ∈ filesBefore fates i, settings.SameFile file.input input)
  /-- The report names the input that has the file. -/
  message {i : Nat} {input output : String} {file : TransformedFile} :
    results.1[i]? = some (input, .ok output) →
      file ∈ filesBefore fates i → settings.SameFile file.input input →
      ∃ path ∈ settings.outputPath input,
        fates[i]? = some (.diagnostic (clashMessage file.input input path))
  apart {folder : String} : settings.outDir = some folder →
    o.files.Pairwise fun a b => ∃ path path', settings.outputPath a.input = some path ∧
      settings.outputPath b.input = some path' ∧
      Files.sameLocation path.toList path'.toList = false
  all_written : settings.outDir = none → ∀ {i : Nat} {input output : String},
    results.1[i]? = some (input, .ok output) → fates[i]? = some (.file ⟨input, output⟩)

/-- What inputs come to, one after the other from the first one on, are the accounts. -/
theorem accounts_of_settled (h : settings.Settled [] results.1 fates) :
    Accounts settings results (Outcome.ofFates fates) fates where
  length_eq := h.length_eq.trans results.length_eq
  outcome_eq := rfl
  total := by rw [Outcome.length_add_length_ofFates, h.length_eq, results.length_eq]
  failed := h.failed
  written := h.written
  reported_iff hi := by
    constructor
    · rintro ⟨text, htext⟩
      by_contra hnone
      have hfile := h.written hi fun file hfile hsame => hnone ⟨file, hfile, hsame⟩
      cases htext.symm.trans hfile
    · rintro ⟨file, hfile, hsame⟩
      obtain ⟨path, _, hfate⟩ := h.message .nil hi hfile hsame
      exact ⟨_, hfate⟩
  message := h.message .nil
  apart hfolder := (h.apart .nil).imp (Settings.exists_paths_of_not_sameFile hfolder)
  all_written hnone _ _ _ hi :=
    h.written hi fun _ _ => Settings.not_sameFile_of_outDir_eq_none hnone _ _

end Accounts

section Perform

variable {m : Type → Type} [Monad m]

/-- Adds an input with its result in front. -/
def Results.cons {inputs : List String} (input : String) (result : Except InputFailure String)
    (results : Results inputs) : Results (input :: inputs) :=
  ⟨(input, result) :: results.1, by rw [List.map_cons, results.2]⟩

/-- Lowers the documents of all inputs, in order. -/
def transformAll (disk : Disk m) (settings : Settings) :
    (inputs : List String) → m (Results inputs)
  | [] => pure ⟨[], rfl⟩
  | input :: rest => do
      let result ← transformFile disk settings input
      let results ← transformAll disk settings rest
      pure (results.cons input result)

theorem transformAll_eq_labelAll (disk : Disk m) (settings : Settings) (inputs : List String) :
    transformAll disk settings inputs = labelAll (transformFile disk settings) inputs := by
  induction inputs with
  | nil => rfl
  | cons input rest ih =>
      rw [transformAll, ih]
      rfl

theorem mapM_transformFile [LawfulMonad m] (disk : Disk m) (settings : Settings)
    (inputs : List String) :
    (inputs.mapM fun input => do
        let result ← transformFile disk settings input
        pure (input, result)) =
      Subtype.val <$> transformAll disk settings inputs := by
  rw [transformAll_eq_labelAll, mapM_label]

theorem perform_eq_collect [LawfulMonad m] (disk : Disk m) (settings : Settings)
    (inputs : List String) :
    perform disk settings inputs =
      (fun results => collect settings [] results.1) <$> transformAll disk settings inputs := by
  simp only [perform, mapM_transformFile, map_eq_pure_bind, bind_assoc, pure_bind]

/-- A run collects the results of its inputs, and whatever they are, it accounts for each
input: with a file, or with a diagnostic where it failed or an earlier input has its file. -/
theorem perform_accounts [LawfulMonad m] (disk : Disk m) (settings : Settings)
    (inputs : List String) :
    perform disk settings inputs =
        (fun results => collect settings [] results.1) <$> transformAll disk settings inputs ∧
      ∀ results : Results inputs,
        ∃ fates, Accounts settings results (collect settings [] results.1) fates := by
  refine ⟨perform_eq_collect disk settings inputs, fun results => ?_⟩
  obtain ⟨fates, hsettled, hcollect⟩ := exists_settled settings results.1 []
  refine ⟨fates, ?_⟩
  rw [show collect settings [] results.1 = Outcome.ofFates fates from hcollect]
  exact accounts_of_settled hsettled

/-- The second input cannot be read, and the third one comes too late for its file. -/
theorem perform_accounts_shared :
    LawfulMonad (StateM Session) ∧
      ∃ fates, Accounts ⟨.template, some "dist", false⟩
        (⟨[("a/index.json", .ok "{{a}}"), ("missing.json", .error (.unreadable .notFound)),
          ("b/index.json", .ok "{{b}}"), ("other.json", .ok "{{c}}")], rfl⟩ :
          Results ["a/index.json", "missing.json", "b/index.json", "other.json"])
        ⟨[⟨"a/index.json", "{{a}}"⟩, ⟨"other.json", "{{c}}"⟩],
          ["failed to read missing.json: No such file or directory (os error 2)",
            "a/index.json and b/index.json both write dist/index.hbs"]⟩ fates := by
  have houtcome : collect ⟨.template, some "dist", false⟩ []
      [("a/index.json", .ok "{{a}}"), ("missing.json", .error (.unreadable .notFound)),
        ("b/index.json", .ok "{{b}}"), ("other.json", .ok "{{c}}")] =
      ⟨[⟨"a/index.json", "{{a}}"⟩, ⟨"other.json", "{{c}}"⟩],
        ["failed to read missing.json: No such file or directory (os error 2)",
          "a/index.json and b/index.json both write dist/index.hbs"]⟩ := by
    decide +kernel
  rw [← houtcome]
  exact ⟨inferInstance, (perform_accounts storeDisk _ _).2 _⟩

end Perform

end Batch

end CurlyTemplate
