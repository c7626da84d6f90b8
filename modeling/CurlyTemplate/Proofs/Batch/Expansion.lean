import CurlyTemplate.Batch.Inputs
import CurlyTemplate.Proofs.Files.Looking
import Mathlib.Data.List.Basic
import Mathlib.Data.List.Pairwise

/-!
# The inputs that arguments come to

An argument gives the location that it is, if the disk has something there, or all that its
pattern finds. The inputs of a run are these locations in the order of the arguments, each of
them where it came first (`collectInputs_of_firstError?_eq_none`); the first argument with
which something is wrong decides that there are none (`collectInputs_of_firstError?`). An
argument all of whose findings are inputs already is in order.

The disk may show anything, as long as looking does not change what it shows
(`expandInputs_expands`).
-/

namespace CurlyTemplate

namespace Batch

open Files (Disk Failure Finding Looks Pattern PatternError Session Store View isAbsolute
  scanTokens search search_looks searchDepth searchIn searchIn_searchAt_looks splitPattern
  steady_storeDisk storeDisk)

/-- Two locations are one input. -/
def sameInput (a b : String) : Bool := Files.sameLocation a.toList b.toList

theorem sameInput_comm (a b : String) : sameInput a b = sameInput b a :=
  Files.sameLocation_comm _ _

section AddInput

theorem addInput_of_any {inputs : List String} {input : String}
    (h : inputs.any (sameInput · input) = true) : addInput inputs input = inputs :=
  if_pos h

theorem addInput_of_not_any {inputs : List String} {input : String}
    (h : inputs.any (sameInput · input) = false) : addInput inputs input = inputs ++ [input] :=
  if_neg (Bool.eq_false_iff.mp h)

/-- Locations that are added to some inputs come behind them, without those that are inputs
already and those that came before. -/
theorem foldl_addInput (locations inputs : List String) :
    locations.foldl addInput inputs =
      inputs ++ (locations.filter fun location =>
        !inputs.any (sameInput · location)).eraseDupsBy sameInput := by
  induction locations generalizing inputs with
  | nil => rw [List.foldl_nil, List.filter_nil, List.eraseDupsBy_nil, List.append_nil]
  | cons location rest ih =>
      rw [List.foldl_cons, ih]
      cases h : inputs.any (sameInput · location) with
      | true => rw [addInput_of_any h, List.filter_cons_of_neg (by simp [h])]
      | false =>
          have hrest (other : String) : (!(inputs ++ [location]).any (sameInput · other)) =
              (decide (sameInput other location = false) &&
                !inputs.any (sameInput · other)) := by
            simp [sameInput_comm other location, Bool.and_comm]
          simp only [addInput_of_not_any h, hrest]
          rw [List.filter_cons_of_pos (by simp [h]), List.eraseDupsBy_cons, List.filter_filter,
            List.append_assoc, List.singleton_append]

/-- No two inputs are one. -/
def Distinct (inputs : List String) : Prop := inputs.Pairwise fun a b => sameInput a b = false

theorem Distinct.addInput {inputs : List String} (h : Distinct inputs) (input : String) :
    Distinct (addInput inputs input) := by
  cases hany : inputs.any (sameInput · input) with
  | true => rwa [addInput_of_any hany]
  | false =>
      rw [addInput_of_not_any hany]
      refine List.pairwise_append.mpr ⟨h, List.pairwise_singleton _ _, fun a ha b hb => ?_⟩
      obtain rfl := List.mem_singleton.mp hb
      simpa using List.any_eq_false.mp hany a ha

theorem Distinct.foldl {inputs : List String} (h : Distinct inputs) (locations : List String) :
    Distinct (locations.foldl Batch.addInput inputs) := by
  induction locations generalizing inputs with
  | nil => exact h
  | cons location rest ih => exact ih (h.addInput location)

end AddInput

namespace Lookup

/-- The locations that an argument gives. -/
def locations (pattern : String) : Lookup → List String
  | .existing => [pattern]
  | .invalid _ => []
  | .findings found => found.filterMap Except.toOption

/-- What is wrong with a finding. -/
def findingError? (pattern : String) : Finding → Option InputError
  | .ok _ => none
  | .error (location, failure) => some (.unreadable pattern location failure)

/-- What is wrong with an argument. -/
def error? (pattern : String) : Lookup → Option InputError
  | .existing => none
  | .invalid error => some (.invalidPattern pattern error)
  | .findings [] => some (.noMatch pattern)
  | .findings (first :: rest) => (first :: rest).findSome? (findingError? pattern)

theorem findSome?_findingError?_eq_none_iff {pattern : String} {found : List Finding} :
    found.findSome? (findingError? pattern) = none ↔
      ∀ location failure, .error (location, failure) ∉ found := by
  rw [List.findSome?_eq_none_iff]
  constructor
  · intro h location failure hmem
    cases h _ hmem
  · rintro h (⟨location, failure⟩ | location) hmem
    · exact absurd hmem (h location failure)
    · rfl

end Lookup

section Add

variable {pattern : String} {inputs : List String} {e : InputError}

theorem addFindings_of_error {found : List Finding}
    (h : found.findSome? (Lookup.findingError? pattern) = some e) :
    addFindings pattern inputs found = .error e := by
  induction found generalizing inputs with
  | nil => cases h
  | cons finding rest ih =>
      match finding with
      | .ok location => exact ih h
      | .error (location, failure) =>
          cases h
          rfl

theorem addFindings_of_none {found : List Finding}
    (h : found.findSome? (Lookup.findingError? pattern) = none) :
    addFindings pattern inputs found =
      .ok ((found.filterMap Except.toOption).foldl addInput inputs) := by
  induction found generalizing inputs with
  | nil => rfl
  | cons finding rest ih =>
      match finding with
      | .ok location => exact ih h
      | .error (location, failure) => cases h

theorem addLookup_of_error {l : Lookup} (h : l.error? pattern = some e) :
    addLookup pattern inputs l = .error e := by
  match l with
  | .existing => cases h
  | .invalid error | .findings [] =>
      cases h
      rfl
  | .findings (first :: rest) => exact addFindings_of_error h

theorem addLookup_of_none {l : Lookup} (h : l.error? pattern = none) :
    addLookup pattern inputs l = .ok ((l.locations pattern).foldl addInput inputs) := by
  match l with
  | .existing => rfl
  | .invalid error | .findings [] => cases h
  | .findings (first :: rest) => exact addFindings_of_none h

end Add

/-- What is wrong with the first argument with which something is. -/
def firstError? (lookups : List (String × Lookup)) : Option InputError :=
  lookups.findSome? fun argument => argument.2.error? argument.1

/-- All locations that arguments give, in order. -/
def locations (lookups : List (String × Lookup)) : List String :=
  lookups.flatMap fun argument => argument.2.locations argument.1

section Collect

variable {lookups : List (String × Lookup)}

theorem collectInputs_of_firstError? {e : InputError} (h : firstError? lookups = some e)
    (inputs : List String) : collectInputs inputs lookups = .error e := by
  induction lookups generalizing inputs with
  | nil => cases h
  | cons argument rest ih =>
      obtain ⟨pattern, l⟩ := argument
      rw [firstError?, List.findSome?_cons] at h
      rw [collectInputs]
      cases herror : l.error? pattern with
      | none =>
          rw [herror] at h
          rw [addLookup_of_none herror]
          exact ih h _
      | some e' =>
          rw [herror] at h
          cases h
          rw [addLookup_of_error herror]
          rfl

theorem collectInputs_of_firstError?_eq_none (h : firstError? lookups = none)
    (inputs : List String) :
    collectInputs inputs lookups = .ok ((locations lookups).foldl addInput inputs) := by
  induction lookups generalizing inputs with
  | nil => rfl
  | cons argument rest ih =>
      obtain ⟨pattern, l⟩ := argument
      rw [firstError?, List.findSome?_cons] at h
      cases herror : l.error? pattern with
      | none =>
          rw [herror] at h
          rw [collectInputs, addLookup_of_none herror, locations, List.flatMap_cons,
            List.foldl_append]
          exact ih h _
      | some e =>
          rw [herror] at h
          cases h

end Collect

section OnView

variable (view : View) (pattern : String)

/-- What an argument comes to when a disk shows something at its location or finds something
by its pattern. -/
def Lookup.ofView : Lookup :=
  if view.existsAt pattern then .existing
  else
    match view.search pattern with
    | .error e => .invalid e
    | .ok found => .findings found

/-- A pattern is none, or comes upon a folder that cannot be read, or finds nothing. -/
inductive GivesNone : Except PatternError (List Finding) → Prop
  | invalid (e : PatternError) : GivesNone (.error e)
  | unreadable {found : List Finding} {location : String} {failure : Failure}
      (h : .error (location, failure) ∈ found) : GivesNone (.ok found)
  | noMatch : GivesNone (.ok [])

/-- Something is wrong with an argument: nothing is there, and its pattern gives no inputs. -/
def Fails : Prop := view.existsAt pattern = false ∧ GivesNone (view.search pattern)

/-- The locations that an argument gives: its own, if there is something, and else what its
pattern finds, in order. -/
def given : List String :=
  if view.existsAt pattern then [pattern]
  else
    match view.search pattern with
    | .error _ => []
    | .ok found => found.filterMap Except.toOption

variable {view pattern}

theorem locations_ofView : (Lookup.ofView view pattern).locations pattern = given view pattern := by
  rw [Lookup.ofView, given]
  split
  · rfl
  · cases view.search pattern <;> rfl

theorem error?_ofView_eq_none_iff :
    (Lookup.ofView view pattern).error? pattern = none ↔ ¬ Fails view pattern := by
  rw [Lookup.ofView, Fails]
  cases view.existsAt pattern with
  | true => exact iff_of_true rfl (fun h => nomatch h.1)
  | false =>
      simp only [Bool.false_eq_true, if_false, true_and]
      match view.search pattern with
      | .error e => exact iff_of_false nofun (not_not_intro (.invalid e))
      | .ok [] => exact iff_of_false nofun (not_not_intro .noMatch)
      | .ok (first :: rest) =>
          rw [Lookup.error?, Lookup.findSome?_findingError?_eq_none_iff]
          constructor
          · rintro h (_ | @⟨_, location, failure, hmem⟩ | _)
            exact h location failure hmem
          · exact fun h location failure hmem => h (.unreadable hmem)

end OnView

/-- The inputs that some arguments come to, by what a disk shows, or why there are none. -/
structure Expands (view : View) (patterns : List String)
    (result : Except InputError (List String)) : Prop where
  error_iff : (∃ e, result = .error e) ↔ ∃ pattern ∈ patterns, Fails view pattern
  /-- The first argument with which something is wrong decides. -/
  firstError {e : InputError} : result = .error e →
    patterns.findSome? (fun pattern => (Lookup.ofView view pattern).error? pattern) = some e
  distinct {inputs : List String} : result = .ok inputs → Distinct inputs
  /-- Each location stands where it came first. -/
  firsts {inputs : List String} : result = .ok inputs →
    inputs = (patterns.flatMap (given view)).eraseDupsBy sameInput

theorem expands_collectInputs (view : View) (patterns : List String) :
    Expands view patterns
      (collectInputs [] (patterns.map fun pattern => (pattern, Lookup.ofView view pattern))) := by
  have hfirst : firstError? (patterns.map fun pattern => (pattern, Lookup.ofView view pattern)) =
      patterns.findSome? fun pattern => (Lookup.ofView view pattern).error? pattern :=
    List.findSome?_map
  cases h : firstError? (patterns.map fun pattern => (pattern, Lookup.ofView view pattern)) with
  | some e =>
      rw [collectInputs_of_firstError? h]
      rw [hfirst] at h
      refine ⟨iff_of_true ⟨e, rfl⟩ ?_, ?_, nofun, nofun⟩
      · obtain ⟨pattern, hmem, herror⟩ := List.exists_of_findSome?_eq_some h
        refine ⟨pattern, hmem, by_contra fun hfails => ?_⟩
        cases herror.symm.trans (error?_ofView_eq_none_iff.mpr hfails)
      · rintro _ ⟨⟩
        exact h
  | none =>
      rw [collectInputs_of_firstError?_eq_none h]
      rw [hfirst, List.findSome?_eq_none_iff] at h
      refine ⟨iff_of_false nofun ?_, nofun, ?_, ?_⟩
      · rintro ⟨pattern, hmem, hfails⟩
        exact error?_ofView_eq_none_iff.mp (h pattern hmem) hfails
      · rintro _ ⟨⟩
        exact Distinct.foldl .nil _
      · rintro _ ⟨⟩
        rw [foldl_addInput, locations, List.flatMap_map]
        simp [locations_ofView]

section Run

variable {σ : Type} {disk : Disk (StateM σ)}

/-- An argument comes to what the disk has there, or else to what its pattern finds. -/
theorem run_lookup (h : disk.Steady) (pattern : String) (s : σ) :
    (lookup disk pattern).run s = (Lookup.ofView (disk.view s) pattern, s) := by
  have hexists : ((disk.existsAt pattern).run s).1 = (disk.view s).existsAt pattern := rfl
  have hsearch : ((search disk pattern).run s).1 = (disk.view s).search pattern := rfl
  rw [lookup, (h.existsAt pattern).run_bind, hexists, Lookup.ofView]
  cases (disk.view s).existsAt pattern with
  | true => rfl
  | false =>
      rw [if_neg Bool.false_ne_true, if_neg Bool.false_ne_true,
        (search_looks h pattern).run_bind, hsearch]
      cases (disk.view s).search pattern <;> rfl

theorem looks_lookup (h : disk.Steady) (pattern : String) : Looks (lookup disk pattern) := by
  intro s
  rw [run_lookup h]

theorem run_expandInputs (h : disk.Steady) (patterns : List String) (s : σ) :
    (expandInputs disk patterns).run s =
      (collectInputs [] (patterns.map fun pattern =>
        (pattern, Lookup.ofView (disk.view s) pattern)), s) := by
  have hlabel (pattern : String) : Looks (do
      let l ← lookup disk pattern
      pure (pattern, l)) :=
    .bind (looks_lookup h pattern) fun _ => .pure _
  have hrun (pattern : String) : ((do
      let l ← lookup disk pattern
      pure (pattern, l) : StateM σ (String × Lookup)).run s).1 =
        (pattern, Lookup.ofView (disk.view s) pattern) := by
    rw [(looks_lookup h pattern).run_bind, run_lookup h]
    rfl
  rw [expandInputs, (Looks.mapM hlabel patterns).run_bind, Looks.run_mapM hlabel]
  simp only [hrun]
  rfl

end Run

/-- On a disk that looking does not change, the arguments come to inputs by what the disk
shows: to the locations that they give, each where it came first; or to none, just when nothing
is at the location of an argument and its pattern gives none. The disk is as it was. -/
theorem expandInputs_expands {σ : Type} {disk : Disk (StateM σ)} (h : disk.Steady)
    (patterns : List String) (s : σ) :
    ∃ result, (expandInputs disk patterns).run s = (result, s) ∧
      Expands (disk.view s) patterns result :=
  ⟨_, run_expandInputs h patterns s, expands_collectInputs _ patterns⟩

/-- Two documents, one of them put there before the other, and a folder with a third. -/
def shelf : Session :=
  ⟨((Store.blank.put ["c.json"] (.file ⟨#[]⟩)).put ["b", "d.json"] (.file ⟨#[]⟩)).put ["a.json"]
    (.file ⟨#[]⟩), ""⟩

/-- `*.json` -/
def documents : Pattern := ⟨.anySequence :: ".json".toList.map .char⟩

theorem ofChars_documents : Pattern.ofChars "*.json".toList = .ok documents := by
  simp [Pattern.ofChars, scanTokens, documents]
  rfl

theorem searchIn_documents :
    (searchIn storeDisk false searchDepth [documents] ".").run shelf =
      ([.ok "a.json", .ok "c.json"], shelf) := by
  have hfolder : ((storeDisk.isFolder ".").run shelf).1 = true := rfl
  have hentries : ((storeDisk.entries ".").run shelf).1 = .ok ["c.json", "b", "a.json"] := rfl
  have hliteral : documents.literal? = none := rfl
  have hdot : documents.startsWithDot = false := rfl
  have hsorted : (["c.json", "b", "a.json"].mergeSort fun a b => decide (a ≤ b)) =
      ["a.json", "b", "c.json"] := by
    simp [List.mergeSort]
  rw [searchDepth, searchIn, (steady_storeDisk.isFolder ".").run_bind, hfolder, hliteral]
  simp only [Bool.not_true, Bool.false_eq_true, if_false]
  rw [(steady_storeDisk.entries ".").run_bind, hentries]
  simp only [hsorted, hdot, Bool.false_and]
  rfl

theorem search_documents :
    (search storeDisk "*.json").run shelf = (.ok [.ok "a.json", .ok "c.json"], shelf) := by
  have hrelative : isAbsolute "*.json".toList = false := rfl
  have hparts : splitPattern "*.json".toList = ["*.json".toList] := rfl
  have hpatterns : (splitPattern "*.json".toList).mapM Pattern.ofChars = .ok [documents] := by
    rw [hparts, List.mapM_cons, ofChars_documents]
    rfl
  have hfiles : ("*.json".toList.getLast? == some '/') = false := rfl
  simp only [search, hrelative, Bool.false_eq_true, if_false, hpatterns, ofChars_documents]
  rw [hfiles, ((searchIn_searchAt_looks steady_storeDisk _ _).1 _ _).run_bind,
    searchIn_documents]
  rfl

/-- A folder that is named twice, and a document that a pattern finds before it is named. -/
def overlapping : List String := ["b/", "b", "*.json", "a.json"]

theorem run_expandInputs_overlapping :
    (expandInputs storeDisk overlapping).run shelf = (.ok ["b/", "a.json", "c.json"], shelf) := by
  have hsearch : (storeDisk.view shelf).search "*.json" = .ok [.ok "a.json", .ok "c.json"] :=
    congrArg Prod.fst search_documents
  have hfound : Lookup.ofView (storeDisk.view shelf) "*.json" =
      .findings [.ok "a.json", .ok "c.json"] := by
    have hexists : (storeDisk.view shelf).existsAt "*.json" = false := rfl
    rw [Lookup.ofView, hexists, if_neg Bool.false_ne_true, hsearch]
  rw [run_expandInputs steady_storeDisk, overlapping]
  simp only [List.map_cons, List.map_nil, hfound]
  rfl

theorem expandInputs_expands_overlapping :
    storeDisk.Steady ∧
      (expandInputs storeDisk overlapping).run shelf =
        (.ok ["b/", "a.json", "c.json"], shelf) ∧
      Expands (storeDisk.view shelf) overlapping (.ok ["b/", "a.json", "c.json"]) := by
  obtain ⟨result, hrun, hexpands⟩ := expandInputs_expands steady_storeDisk overlapping shelf
  cases run_expandInputs_overlapping.symm.trans hrun
  exact ⟨steady_storeDisk, run_expandInputs_overlapping, hexpands⟩

end Batch

end CurlyTemplate
