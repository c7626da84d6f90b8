import CurlyTemplate.Proofs.Batch.Accounts
import CurlyTemplate.Proofs.Files.Names

/-!
# How files for results are named

The file for an input is put into the folder under the stem of the input, and only then gets its
extension. That takes off what the stem itself has behind its last dot, so that stems with
dots lose their last part, and inputs whose stems differ in this part only have one file.
-/

namespace CurlyTemplate

namespace Batch

section Naming

variable {settings : Settings} {folder input other : String} {stem : List Char}

/-- The file of this name in a folder. -/
def inFolder (folder : String) (name : List Char) : String :=
  String.ofList (Files.join folder.toList name)

@[simp] theorem toList_inFolder (folder : String) (name : List Char) :
    (inFolder folder name).toList = Files.join folder.toList name := by
  rw [inFolder, String.toList_ofList]

theorem inFolder_inj {name name' : List Char} (h : Files.IsName name) (h' : Files.IsName name') :
    inFolder folder name = inFolder folder name' ↔ name = name' := by
  rw [← String.toList_inj, toList_inFolder, toList_inFolder, Files.join_inj h h']

namespace Format

theorem slash_not_mem_extension (format : Format) : '/' ∉ format.extension.toList := by
  cases format <;> decide

theorem extension_ne_nil (format : Format) : format.extension.toList ≠ [] := by
  cases format <;> decide

end Format

theorem outputPath_of_stem (hfolder : settings.outDir = some folder)
    (hstem : Files.fileStem? input.toList = some stem) :
    settings.outputPath input = some (String.ofList (Files.withExtension
      (Files.join folder.toList stem) settings.format.extension.toList)) := by
  rw [Settings.outputPath, hfolder, hstem]
  rfl

/-- How the file is named in a folder for an input with a stem. -/
structure Naming (settings : Settings) (folder input : String) (stem : List Char) : Prop where
  /-- The file has the whole stem in its name just when the stem has no extension itself. -/
  named_iff : settings.outputPath input =
      some (inFolder folder (stem ++ '.' :: settings.format.extension.toList)) ↔
    (Files.splitExtension stem).2 = none ∧ stem ≠ ['.']
  /-- An extension that the stem has is taken off. -/
  outputPath_eq : stem ≠ ['.'] → settings.outputPath input =
    some (inFolder folder (Files.renamed stem settings.format.extension.toList))
  /-- For a dot there is no file in the folder. -/
  outside : stem = ['.'] → ∃ path ∈ settings.outputPath input, ∀ name, Files.IsName name →
    Files.sameLocation path.toList (inFolder folder name).toList = false
  /-- There is one file for stems that differ in their extensions only. -/
  sameFile_iff {other : String} {stem' : List Char} :
    Files.fileStem? other.toList = some stem' → (settings.SameFile input other ↔
      Files.stemOf stem = Files.stemOf stem' ∧ (stem = ['.'] ↔ stem' = ['.']))

section Parts

theorem isName_renamed_of_stem (hstem : Files.fileStem? input.toList = some stem)
    (hdot : stem ≠ ['.']) : Files.IsName (Files.renamed stem settings.format.extension.toList) :=
  (Files.isName_of_fileStem? hstem hdot).renamed settings.format.slash_not_mem_extension

variable {stem' : List Char} (hfolder : settings.outDir = some folder)
  (hstem : Files.fileStem? input.toList = some stem)

include hfolder hstem

theorem outputPath_renamed (hdot : stem ≠ ['.']) : settings.outputPath input =
    some (inFolder folder (Files.renamed stem settings.format.extension.toList)) := by
  rw [outputPath_of_stem hfolder hstem, inFolder,
    Files.withExtension_join_renamed (Files.isName_of_fileStem? hstem hdot)]

theorem outputPath_outside (hdot : stem = ['.']) :
    ∃ path ∈ settings.outputPath input, ∀ name, Files.IsName name →
      Files.sameLocation path.toList (inFolder folder name).toList = false := by
  subst hdot
  refine ⟨_, outputPath_of_stem hfolder hstem, fun name hname => Bool.eq_false_iff.mpr ?_⟩
  intro hsame
  rw [String.toList_ofList, toList_inFolder, Files.sameLocation_iff,
    Files.components_join hname] at hsame
  exact Files.components_withExtension_join_dot settings.format.slash_not_mem_extension hname _
    hsame.2

theorem not_sameFile_of_dot (hdot : stem = ['.'])
    (hstem' : Files.fileStem? other.toList = some stem') (hdot' : stem' ≠ ['.']) :
    ¬ settings.SameFile input other := by
  rintro ⟨path, hpath, path', hpath', hsame⟩
  obtain ⟨_, hpath₁, houtside⟩ := outputPath_outside hfolder hstem hdot
  obtain rfl := Option.some_inj.mp (hpath.symm.trans hpath₁)
  obtain rfl := Option.some_inj.mp (hpath'.symm.trans (outputPath_renamed hfolder hstem' hdot'))
  rw [houtside _ (isName_renamed_of_stem hstem' hdot')] at hsame
  cases hsame

theorem sameFile_iff_of_stems (hstem' : Files.fileStem? other.toList = some stem') :
    settings.SameFile input other ↔
      Files.stemOf stem = Files.stemOf stem' ∧ (stem = ['.'] ↔ stem' = ['.']) := by
  by_cases hdot : stem = ['.'] <;> by_cases hdot' : stem' = ['.']
  · subst hdot hdot'
    refine iff_of_true ⟨_, outputPath_of_stem hfolder hstem, _,
      outputPath_of_stem hfolder hstem', Files.sameLocation_self _⟩ ⟨rfl, Iff.rfl⟩
  · refine iff_of_false (not_sameFile_of_dot hfolder hstem hdot hstem' hdot') fun h => ?_
    exact hdot' (h.2.mp hdot)
  · refine iff_of_false (fun hsame => ?_) fun h => hdot (h.2.mpr hdot')
    exact not_sameFile_of_dot hfolder hstem' hdot' hstem hdot hsame.symm
  · have hname := Files.isName_of_fileStem? hstem hdot
    have hname' := Files.isName_of_fileStem? hstem' hdot'
    have hsame : settings.SameFile input other ↔
        Files.renamed stem settings.format.extension.toList =
          Files.renamed stem' settings.format.extension.toList := by
      rw [Settings.SameFile, outputPath_renamed hfolder hstem hdot,
        outputPath_renamed hfolder hstem' hdot']
      simp only [Option.mem_some_iff, exists_eq_left', toList_inFolder]
      exact Files.sameLocation_join_iff (isName_renamed_of_stem hstem hdot)
        (isName_renamed_of_stem hstem' hdot')
    rw [hsame, Files.renamed_inj hname hname' settings.format.extension_ne_nil]
    exact (and_iff_left (iff_of_false hdot hdot')).symm

theorem outputPath_eq_iff_of_stem : settings.outputPath input =
      some (inFolder folder (stem ++ '.' :: settings.format.extension.toList)) ↔
    (Files.splitExtension stem).2 = none ∧ stem ≠ ['.'] := by
  have hextension := settings.format.extension_ne_nil
  have hslash := settings.format.slash_not_mem_extension
  by_cases hdot : stem = ['.']
  · refine iff_of_false (fun hpath => ?_) fun h => h.2 hdot
    obtain ⟨_, hpath', houtside⟩ := outputPath_outside hfolder hstem hdot
    obtain rfl := Option.some_inj.mp (hpath.symm.trans hpath')
    have hname : Files.IsName (stem ++ '.' :: settings.format.extension.toList) := by
      subst hdot
      exact .append_extension (by decide) (by decide) hslash
    exact Bool.eq_false_iff.mp (houtside _ hname) (Files.sameLocation_self _)
  · have hname := Files.isName_of_fileStem? hstem hdot
    rw [outputPath_renamed hfolder hstem hdot, Option.some_inj, inFolder_inj
      (isName_renamed_of_stem hstem hdot)
      (.append_extension hname.ne_nil hname.slash_not_mem hslash),
      Files.renamed_eq_append_iff hname hextension]
    exact (and_iff_left hdot).symm

end Parts

/-- The file for an input has the stem of the input as its name exactly when the stem has no
extension of its own. Else that extension gives way to the one of the format, and inputs have
one file whenever the rest of their stems is the same. -/
theorem outputPath_naming (hfolder : settings.outDir = some folder)
    (hstem : Files.fileStem? input.toList = some stem) :
    Naming settings folder input stem where
  named_iff := outputPath_eq_iff_of_stem hfolder hstem
  outputPath_eq := outputPath_renamed hfolder hstem
  outside := outputPath_outside hfolder hstem
  sameFile_iff := sameFile_iff_of_stems hfolder hstem

theorem outputPath_naming_dotted :
    let settings : Settings := ⟨.json, some "dist", false⟩
    settings.outDir = some "dist" ∧
      Files.fileStem? "a.b.json".toList = some "a.b".toList ∧
      Naming settings "dist" "a.b.json" "a.b".toList :=
  ⟨rfl, by decide, outputPath_naming rfl (by decide)⟩

/-- The stems are not the same, and the file has neither of them as its name. -/
theorem not_named_dotted :
    let settings : Settings := ⟨.json, some "dist", false⟩
    Files.fileStem? "a.b.json".toList = some "a.b".toList ∧
      Files.fileStem? "a.c.json".toList = some "a.c".toList ∧
      settings.outputPath "a.b.json" ≠ some "dist/a.b.json" ∧
      settings.outputPath "a.b.json" = settings.outputPath "a.c.json" ∧
      (collect settings [] [("a.b.json", .ok "b"), ("a.c.json", .ok "c")]).diagnostics =
        ["a.b.json and a.c.json both write dist/a.json"] := by
  decide +kernel

end Naming

end Batch

end CurlyTemplate
