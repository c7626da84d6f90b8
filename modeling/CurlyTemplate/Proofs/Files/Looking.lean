import CurlyTemplate.Files.Search
import CurlyTemplate.Files.Store

/-!
# Looking at files

Whoever looks at the files of a disk, and does no more, finds them as they were. A search goes
from folder to folder by looking at each (`search_looks`), so what is there and what a pattern
finds are the same before and behind it: both are told by the disk as it stands, its `View`.
-/

namespace CurlyTemplate

namespace Files

variable {σ α β : Type}

/-- An action tells something about a state and leaves it as it is. -/
def Looks (act : StateM σ α) : Prop := ∀ s, (act.run s).2 = s

namespace Looks

variable {act : StateM σ α} {next : α → StateM σ β}

theorem pure (x : α) : Looks (Pure.pure x : StateM σ α) := fun _ => rfl

theorem get : Looks (MonadState.get : StateM σ σ) := fun _ => rfl

/-- What follows goes on in the same state. -/
theorem run_bind (h : Looks act) (next : α → StateM σ β) (s : σ) :
    (act >>= next).run s = (next (act.run s).1).run s := by
  have hrun : (act >>= next).run s = (next (act.run s).1).run (act.run s).2 := rfl
  rw [hrun, h s]

theorem bind (h : Looks act) (hnext : ∀ x, Looks (next x)) : Looks (act >>= next) := by
  intro s
  rw [h.run_bind]
  exact hnext _ s

theorem ite {p : Prop} [Decidable p] {act' : StateM σ α} (h : Looks act) (h' : Looks act') :
    Looks (if p then act else act') := by
  split
  · exact h
  · exact h'

theorem mapM (h : ∀ x, Looks (next x)) (list : List α) : Looks (list.mapM next) := by
  induction list with
  | nil => exact pure []
  | cons x rest ih =>
      rw [List.mapM_cons]
      exact (h x).bind fun _ => ih.bind fun _ => pure _

/-- All members of a list are looked at in one and the same state. -/
theorem run_mapM (h : ∀ x, Looks (next x)) (list : List α) (s : σ) :
    (list.mapM next).run s = (list.map fun x => ((next x).run s).1, s) := by
  induction list with
  | nil => rfl
  | cons x rest ih =>
      rw [List.mapM_cons, (h x).run_bind, (mapM h rest).run_bind, ih]
      rfl

end Looks

/-- Looking at the files of a disk does not change them. -/
structure Disk.Steady (disk : Disk (StateM σ)) : Prop where
  existsAt : ∀ location, Looks (disk.existsAt location)
  isFolder : ∀ location, Looks (disk.isFolder location)
  entries : ∀ location, Looks (disk.entries location)

section Search

variable {disk : Disk (StateM σ)} (h : disk.Steady) (foldersOnly : Bool)

include h

theorem found_looks (location : String) : Looks (found disk foldersOnly location) := by
  rw [found]
  refine .ite (.bind (h.isFolder location) fun _ => ?_) (.pure _)
  exact .ite (.pure _) (.pure _)

section Step

variable {foldersOnly} {depth : Nat}
  (hin : ∀ patterns folder, Looks (searchIn disk foldersOnly depth patterns folder))
  (hat : ∀ p rest name location, Looks (searchAt disk foldersOnly depth p rest name location))

include hin

/-- What is done behind a component, on a condition: the location is found, or the search goes
on in it. -/
theorem onward_looks (condition : Bool) (rest : List Pattern) (location : String) :
    Looks (if condition then
      if rest.isEmpty then found disk foldersOnly location
      else searchIn disk foldersOnly depth rest location
      else Pure.pure []) :=
  .ite (.ite (found_looks h foldersOnly location) (hin rest location)) (.pure [])

theorem searchAt_succ_looks (p : Pattern) (rest : List Pattern) (name location : String) :
    Looks (searchAt disk foldersOnly (depth + 1) p rest name location) := by
  have hhere (q : Pattern) (rest : List Pattern) :=
    onward_looks h hin (q.accepts name.toList) rest location
  rw [searchAt]
  refine .ite (.bind (h.isFolder location) fun _ => ?_) (hhere p rest)
  cases rest.dropWhile Pattern.isAnyDepth with
  | nil =>
      have hown (below : List Finding) : Looks (do
          if ← disk.isFolder location then Pure.pure (.ok location :: below)
          else Pure.pure []) :=
        .bind (h.isFolder location) fun _ => .ite (.pure _) (.pure _)
      exact .ite (.bind (hin _ location) hown) (.bind (.pure _) hown)
  | cons q rest =>
      have hown := fun below : List Finding => (hhere q rest).bind fun own => .pure (own ++ below)
      exact .ite (.bind (hin _ location) hown) (.bind (.pure _) hown)

include hat

theorem searchIn_succ_looks (patterns : List Pattern) (folder : String) :
    Looks (searchIn disk foldersOnly (depth + 1) patterns folder) := by
  cases patterns with
  | nil =>
      rw [searchIn]
      exact .pure []
  | cons p rest =>
      rw [searchIn]
      refine .bind (h.isFolder folder) fun isFolder => ?_
      cases p.literal? with
      | some name =>
          have hthere (there : Bool) :=
            onward_looks h hin there rest (inside folder (String.ofList name))
          exact .ite (.bind (.pure _) hthere) (.bind (h.existsAt _) hthere)
      | none =>
          refine .ite (.pure _) (.bind (h.entries folder) fun entries => ?_)
          cases entries with
          | error failure => exact .pure _
          | ok names =>
              have hspecial (name : String) :=
                onward_looks h hin (p.startsWithDot && p.accepts name.toList) rest
                  (String.ofList (join folder.toList name.toList))
              have hbelow := Looks.mapM fun name => hat p rest name (inside folder name)
              exact (hspecial "..").bind fun _ => (hspecial ".").bind fun _ =>
                (hbelow _).bind fun _ => .pure _

end Step

theorem searchIn_searchAt_looks (depth : Nat) :
    (∀ patterns folder, Looks (searchIn disk foldersOnly depth patterns folder)) ∧
      ∀ p rest name location, Looks (searchAt disk foldersOnly depth p rest name location) := by
  induction depth with
  | zero =>
      constructor
      · intro patterns folder
        rw [searchIn]
        exact .pure []
      · intro p rest name location
        rw [searchAt]
        exact .pure []
  | succ depth ih => exact ⟨searchIn_succ_looks h ih.1 ih.2, searchAt_succ_looks h ih.1⟩

omit foldersOnly in
theorem search_looks (pattern : String) : Looks (search disk pattern) := by
  rw [search]
  split
  next start below =>
    split
    · exact .pure _
    · exact .pure _
    · exact ((searchIn_searchAt_looks h _ _).1 _ _).bind fun _ => .pure _

end Search

/-- What a disk shows of its files. -/
structure View where
  /-- Whether there is anything at a location. -/
  existsAt : String → Bool
  /-- What a pattern finds, in order. -/
  search : String → Except PatternError (List Finding)

/-- What a disk shows as it stands. -/
def Disk.view (disk : Disk (StateM σ)) (s : σ) : View where
  existsAt location := ((disk.existsAt location).run s).1
  search pattern := ((search disk pattern).run s).1

theorem steady_storeDisk : storeDisk.Steady where
  existsAt _ := .bind .get fun _ => .pure _
  isFolder location := .bind .get fun session => by
    cases session.store.resolve location with
    | error failure => exact .pure _
    | ok place => exact .pure _
  entries location := .bind .get fun session => by
    cases session.store.resolve location with
    | error failure => exact .pure _
    | ok place => exact .ite (.pure _) (.pure _)

end Files

end CurlyTemplate
