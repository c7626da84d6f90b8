import CurlyTemplate.Files.Location
import Mathlib.Data.List.Basic

/-!
# Names in folders

What is put into a folder under a name has that name as its last component, and the location
tells the name back (`sameLocation_join_iff`). Giving it another extension changes the name
and leaves the folder (`withExtension_join_renamed`). A dot put into a folder is no name in it:
the folder itself gets the extension then (`components_withExtension_join_dot`).

What holds of all locations goes by how they end (`location_induction`).
-/

namespace CurlyTemplate

namespace Files

/-- A name that can stand in a folder: it counts, and holds no slash. -/
structure IsName (name : List Char) : Prop where
  ne_nil : name ≠ []
  ne_dot : name ≠ ['.']
  slash_not_mem : '/' ∉ name

theorem isAbsolute_of_not_mem {name : List Char} (h : '/' ∉ name) : isAbsolute name = false := by
  cases name with
  | nil => rfl
  | cons c rest =>
      rw [isAbsolute, List.head?_cons, beq_eq_false_iff_ne]
      rintro ⟨⟩
      exact h List.mem_cons_self

namespace IsName

variable {name : List Char}

theorem counts_eq (h : IsName name) : counts name = true := by
  rw [counts, Bool.and_eq_true, bne_iff_ne, bne_iff_ne]
  exact ⟨h.ne_nil, h.ne_dot⟩

/-- Two dots, for the folder around. -/
theorem up : IsName ['.', '.'] := ⟨by decide, by decide, by decide⟩

theorem concat {c : Char} (h : IsName name) (hc : c ≠ '/') : IsName (name ++ [c]) where
  ne_nil := by simp
  ne_dot := by simp [List.append_eq_singleton_iff, h.ne_nil]
  slash_not_mem := by simpa [hc.symm] using h.slash_not_mem

theorem append_extension {stem extension : List Char} (hne : stem ≠ []) (hstem : '/' ∉ stem)
    (hextension : '/' ∉ extension) : IsName (stem ++ '.' :: extension) where
  ne_nil := by simp
  ne_dot := by simp [List.append_eq_singleton_iff, hne]
  slash_not_mem := by simp [hstem, hextension]

end IsName

section Components

theorem components_of_dot {location : List Char} {others : List (List Char)}
    (h : Text.segments '/' location = ['.'] :: others) :
    components location = ['.'] :: others.filter counts := by
  simp only [components, h]

theorem components_of_ne_dot {location first : List Char} {others : List (List Char)}
    (h : Text.segments '/' location = first :: others) (hdot : first ≠ ['.']) :
    components location = (first :: others).filter counts := by
  rw [components, h]
  split
  · next heq => exact absurd (List.cons.inj heq).1 hdot
  · rfl

/-- What stands before a slash keeps its components. -/
theorem components_append_slash (base rest : List Char) :
    components (base ++ '/' :: rest) =
      components base ++ (Text.segments '/' rest).filter counts := by
  obtain ⟨first, others, hbase⟩ :=
    List.exists_cons_of_ne_nil (Text.segments_ne_nil '/' base)
  have hwhole := Text.segments_append_cons '/' base rest
  rw [hbase, List.cons_append] at hwhole
  by_cases hdot : first = ['.']
  · subst hdot
    rw [components_of_dot hwhole, components_of_dot hbase, List.filter_append, List.cons_append]
  · rw [components_of_ne_dot hwhole hdot, components_of_ne_dot hbase hdot, ← List.filter_append,
      List.cons_append]

theorem components_slash (location : List Char) :
    components (location ++ ['/']) = components location := by
  rw [components_append_slash, Text.segments_nil, List.filter_cons_of_neg (by decide),
    List.filter_nil, List.append_nil]

theorem components_slash_dot (location : List Char) :
    components (location ++ ['/', '.']) = components location := by
  rw [components_append_slash, Text.segments_of_not_mem (by decide),
    List.filter_cons_of_neg (by decide), List.filter_nil, List.append_nil]

theorem components_of_isName {name : List Char} (h : IsName name) : components name = [name] := by
  rw [components_of_ne_dot (Text.segments_of_not_mem h.slash_not_mem) h.ne_dot,
    List.filter_cons_of_pos h.counts_eq, List.filter_nil]

end Components

section Join

variable {base name : List Char}

/-- How a folder is written when a name is put behind it. -/
def asPrefix (base : List Char) : List Char :=
  if base = [] ∨ base.getLast? = some '/' then base else base ++ ['/']

theorem join_eq_append (h : '/' ∉ name) : join base name = asPrefix base ++ name := by
  rw [join, asPrefix, if_neg (by simp [isAbsolute_of_not_mem h])]
  split
  · rfl
  · rw [List.append_assoc, List.singleton_append]

theorem join_append (h : name ≠ []) (base rest : List Char) :
    join base (name ++ rest) = join base name ++ rest := by
  obtain ⟨c, tail, rfl⟩ := List.exists_cons_of_ne_nil h
  have habsolute : isAbsolute (c :: tail ++ rest) = isAbsolute (c :: tail) := rfl
  rw [join, join, habsolute]
  split
  · rfl
  · split
    · rw [List.append_assoc]
    · rw [List.append_assoc, List.cons_append, List.cons_append, List.cons_append]

/-- A folder stands before the names in it with a slash, unless it has no name itself. -/
theorem asPrefix_cases (base : List Char) :
    (base = [] ∧ asPrefix base = []) ∨
      ∃ before, asPrefix base = before ++ ['/'] ∧ components before = components base ∧
        (base = before ∧ before ≠ [] ∨ base = before ++ ['/']) := by
  by_cases hnil : base = []
  · subst hnil
    exact .inl ⟨rfl, rfl⟩
  by_cases hlast : base.getLast? = some '/'
  · obtain ⟨before, rfl⟩ := List.getLast?_eq_some_iff.mp hlast
    exact .inr ⟨before, if_pos (.inr hlast), (components_slash before).symm, .inr rfl⟩
  · exact .inr ⟨base, if_neg (not_or.mpr ⟨hnil, hlast⟩), rfl, .inl ⟨rfl, hnil⟩⟩

theorem components_join (h : IsName name) (base : List Char) :
    components (join base name) = components base ++ [name] := by
  rw [join_eq_append h.slash_not_mem]
  rcases asPrefix_cases base with ⟨rfl, hfront⟩ | ⟨before, hfront, hbefore, -⟩
  · rw [hfront, List.nil_append, components_of_isName h]
    rfl
  · rw [hfront, List.append_assoc, List.singleton_append, components_append_slash, hbefore,
      Text.segments_of_not_mem h.slash_not_mem, List.filter_cons_of_pos h.counts_eq,
      List.filter_nil]

theorem isAbsolute_join (h : IsName name) (base : List Char) :
    isAbsolute (join base name) = isAbsolute base := by
  rw [join_eq_append h.slash_not_mem]
  rcases asPrefix_cases base with ⟨rfl, hfront⟩ | ⟨before, hfront, -, hbase⟩
  · rw [hfront, List.nil_append, isAbsolute_of_not_mem h.slash_not_mem]
    rfl
  · rw [hfront]
    rcases hbase with ⟨rfl, hne⟩ | rfl
    · obtain ⟨c, rest, rfl⟩ := List.exists_cons_of_ne_nil hne
      rfl
    · cases before <;> rfl

/-- A location in a folder tells the name. -/
theorem sameLocation_join_iff {other : List Char} (h : IsName name) (hother : IsName other) :
    sameLocation (join base name) (join base other) = true ↔ name = other := by
  rw [sameLocation_iff, isAbsolute_join h, isAbsolute_join hother, components_join h,
    components_join hother, List.append_right_inj, List.singleton_inj]
  exact and_iff_right rfl

theorem join_inj {other : List Char} (h : IsName name) (hother : IsName other) :
    join base name = join base other ↔ name = other := by
  rw [join_eq_append h.slash_not_mem, join_eq_append hother.slash_not_mem, List.append_right_inj]

theorem fileName?_join (h : IsName name) (hup : name ≠ ['.', '.']) (base : List Char) :
    fileName? (join base name) = some name := by
  rw [fileName?, components_join h, List.getLast?_concat]
  split
  · next heq => exact absurd (Option.some_inj.mp heq) h.ne_dot
  · next heq => exact absurd (Option.some_inj.mp heq) hup
  · rfl

theorem fileName?_join_up (base : List Char) : fileName? (join base ['.', '.']) = none := by
  simp only [fileName?, components_join .up, List.getLast?_concat]

/-- What stands behind the last slash, or all of it. -/
theorem exists_last (location : List Char) :
    '/' ∉ location ∨ ∃ before last, location = before ++ '/' :: last ∧ '/' ∉ last := by
  by_cases h : '/' ∈ location
  · obtain ⟨last, before, hreverse, hlast⟩ :=
      List.eq_append_cons_of_mem (List.mem_reverse.mpr h)
    refine .inr ⟨before.reverse, last.reverse, ?_, by simpa using hlast⟩
    rw [← List.reverse_reverse location, hreverse]
    simp
  · exact .inl h

theorem join_slash (h : '/' ∉ name) (before : List Char) :
    join (before ++ ['/']) name = before ++ '/' :: name := by
  rw [join_eq_append h, asPrefix, if_pos (.inr List.getLast?_concat), List.append_assoc,
    List.singleton_append]

/-- A location ends in a name, or in a slash or a dot that counts for nothing, or is nothing
or a dot. -/
theorem location_induction {motive : List Char → Prop} (nil : motive []) (dot : motive ['.'])
    (slash : ∀ before, motive before → motive (before ++ ['/']))
    (slash_dot : ∀ before, motive before → motive (before ++ ['/', '.']))
    (join : ∀ base name, IsName name → motive (join base name)) (location : List Char) :
    motive location := by
  induction hlength : location.length using Nat.strongRecOn generalizing location with
  | ind length ih =>
  subst hlength
  rcases exists_last location with h | ⟨before, last, rfl, h⟩
  · by_cases hnil : location = []
    · exact hnil ▸ nil
    by_cases hdot : location = ['.']
    · exact hdot ▸ dot
    · simpa [join_eq_append h, asPrefix] using join [] location ⟨hnil, hdot, h⟩
  · have hbefore := ih before.length (by simp) before rfl
    by_cases hnil : last = []
    · exact hnil ▸ slash before hbefore
    by_cases hdot : last = ['.']
    · exact hdot ▸ slash_dot before hbefore
    · exact join_slash h before ▸ join (before ++ ['/']) last ⟨hnil, hdot, h⟩

theorem fileName?_slash (location : List Char) :
    fileName? (location ++ ['/']) = fileName? location := by
  rw [fileName?, components_slash, fileName?]

theorem fileName?_slash_dot (location : List Char) :
    fileName? (location ++ ['/', '.']) = fileName? location := by
  rw [fileName?, components_slash_dot, fileName?]

/-- What is a file name can stand in a folder. -/
theorem isName_of_fileName? {location : List Char} (h : fileName? location = some name) :
    IsName name ∧ name ≠ ['.', '.'] := by
  induction location using location_induction with
  | nil => cases h
  | dot => cases h
  | slash before ih => exact ih (fileName?_slash before ▸ h)
  | slash_dot before ih => exact ih (fileName?_slash_dot before ▸ h)
  | join base last hlast =>
      by_cases hup : last = ['.', '.']
      · rw [hup, fileName?_join_up] at h
        cases h
      · rw [fileName?_join hlast hup] at h
        exact Option.some_inj.mp h ▸ ⟨hlast, hup⟩

end Join

section Extension

variable {name stem extension base : List Char}

/-- A name without its extension. -/
def stemOf (name : List Char) : List Char := (splitExtension name).1

theorem stemOf_of_none (h : (splitExtension name).2 = none) : stemOf name = name := by
  rw [splitExtension] at h
  rw [stemOf, splitExtension]
  split at h
  · cases h
  · next hc => rw [if_neg hc]

theorem stemOf_append (h : (splitExtension name).2 = some extension) :
    stemOf name ++ '.' :: extension = name :=
  splitExtension_append (Prod.ext rfl h)

theorem stemOf_isPrefix (name : List Char) : stemOf name <+: name := by
  cases h : (splitExtension name).2 with
  | none => exact (stemOf_of_none h).symm ▸ List.prefix_refl name
  | some extension => exact ⟨_, stemOf_append h⟩

theorem stemOf_ne_nil (h : name ≠ []) : stemOf name ≠ [] := by
  simp only [stemOf, splitExtension]
  split
  · next hc => exact hc.2
  · exact h

/-- The dot at the end of a name is one of an empty extension. -/
theorem splitExtension_concat_dot (h : stem ≠ []) :
    splitExtension (stem ++ ['.']) = (stem, some []) := by
  simp [splitExtension, h]

theorem IsName.slash_not_mem_stemOf (h : IsName name) : '/' ∉ stemOf name :=
  fun hmem => h.slash_not_mem ((stemOf_isPrefix name).subset hmem)

/-- The stem of a file can stand in a folder, unless it is a dot. -/
theorem isName_of_fileStem? {location : List Char} (h : fileStem? location = some stem)
    (hdot : stem ≠ ['.']) : IsName stem := by
  obtain ⟨name, hname, rfl⟩ := Option.map_eq_some_iff.mp h
  have hisName := (isName_of_fileName? hname).1
  exact ⟨stemOf_ne_nil hisName.ne_nil, hdot, hisName.slash_not_mem_stemOf⟩

/-- Nothing is dropped from a location that ends in a name. -/
theorem dropTrailing_reverse_append (h : IsName name) (rest : List Char) :
    dropTrailing (name.reverse ++ rest) = name.reverse ++ rest := by
  obtain ⟨before, c, rfl⟩ := (List.eq_nil_or_concat' name).resolve_left h.ne_nil
  rw [List.reverse_concat, List.cons_append]
  apply dropTrailing.eq_3
  · rintro tail heq
    obtain ⟨rfl, -⟩ := List.cons.inj heq
    exact h.slash_not_mem List.mem_concat_self
  · rintro tail heq
    obtain ⟨rfl, htail⟩ := List.cons.inj heq
    rcases List.eq_nil_or_concat' before with rfl | ⟨_, d, rfl⟩
    · exact h.ne_dot rfl
    · rw [List.reverse_concat, List.cons_append] at htail
      obtain ⟨rfl, -⟩ := List.cons.inj htail
      exact h.slash_not_mem (List.mem_append_left _ List.mem_concat_self)

theorem upToStem?_join (h : IsName name) (hup : name ≠ ['.', '.']) (base : List Char) :
    upToStem? (join base name) = some (join base (stemOf name)) := by
  have hstem : name.take (stemOf name).length = stemOf name :=
    (List.prefix_iff_eq_take.mp (stemOf_isPrefix name)).symm
  rw [upToStem?, fileName?_join h hup, Option.map_some, join_eq_append h.slash_not_mem,
    List.reverse_append, dropTrailing_reverse_append h, List.reverse_append,
    List.reverse_reverse, List.reverse_reverse, join_eq_append h.slash_not_mem_stemOf]
  change some (List.take ((asPrefix base ++ name).length - name.length + (stemOf name).length)
    (asPrefix base ++ name)) = _
  rw [List.length_append, Nat.add_sub_cancel, List.take_length_add_append, hstem]

theorem upToStem?_slash (location : List Char) :
    upToStem? (location ++ ['/']) = upToStem? location := by
  simp only [upToStem?, fileName?_slash, List.reverse_append, List.reverse_singleton,
    List.singleton_append, dropTrailing]

theorem upToStem?_slash_dot (location : List Char) :
    upToStem? (location ++ ['/', '.']) = upToStem? location := by
  have hreverse : (location ++ ['/', '.']).reverse = '.' :: '/' :: location.reverse :=
    List.reverse_append
  simp only [upToStem?, fileName?_slash_dot, hreverse, dropTrailing]

theorem extension?_join (h : IsName name) (hup : name ≠ ['.', '.']) (base : List Char) :
    extension? (join base name) = (splitExtension name).2 := by
  rw [extension?, fileName?_join h hup, Option.bind_some]

theorem withExtension_of_none {location : List Char} (h : extension? location = none)
    (extension : List Char) :
    withExtension location extension =
      (upToStem? location).elim location fun stem => stem ++ '.' :: extension := by
  simp only [withExtension, h]
  cases upToStem? location <;> rfl

/-- An old extension is cut off from the end, and the dot is left. -/
theorem withExtension_of_some {location old : List Char}
    (h : extension? (location ++ '.' :: old) = some old) (extension : List Char) :
    withExtension (location ++ '.' :: old) extension =
      (upToStem? (location ++ ['.'])).elim (location ++ ['.']) fun stem =>
        stem ++ '.' :: extension := by
  have hcut : (location ++ '.' :: old).take ((location ++ '.' :: old).length - old.length) =
      location ++ ['.'] := by
    rw [List.append_cons, List.length_append, Nat.add_sub_cancel, List.take_left]
  simp only [withExtension, h, hcut]
  cases upToStem? (location ++ ['.']) <;> rfl

/-- With another extension a name in a folder keeps its stem. -/
theorem withExtension_join (h : IsName name) (hstem : stemOf name ≠ ['.'])
    (base extension : List Char) :
    withExtension (join base name) extension = join base (stemOf name ++ '.' :: extension) := by
  have hup : name ≠ ['.', '.'] := by
    rintro rfl
    exact hstem (by decide)
  have hne := stemOf_ne_nil h.ne_nil
  have hextension := extension?_join h hup base
  rw [join_append hne]
  cases hold : (splitExtension name).2 with
  | none =>
      rw [withExtension_of_none (hextension.trans hold), upToStem?_join h hup, Option.elim_some]
  | some old =>
      have hdot : IsName (stemOf name ++ ['.']) := by
        refine ⟨by simp, by simpa using hne, ?_⟩
        simpa using h.slash_not_mem_stemOf
      have hup' : stemOf name ++ ['.'] ≠ ['.', '.'] := fun heq =>
        hstem (List.append_cancel_right heq)
      have hjoin : join base name = join base (stemOf name) ++ '.' :: old := by
        rw [← join_append hne, stemOf_append hold]
      rw [hjoin] at hextension ⊢
      rw [withExtension_of_some (hextension.trans hold), ← join_append hne,
        upToStem?_join hdot hup', stemOf, splitExtension_concat_dot hne, Option.elim_some]

/-- Where a dot is left of the name, nothing is put behind the two dots that remain once the old
extension is cut off. -/
theorem withExtension_join_up (h : IsName name) (hstem : stemOf name = ['.'])
    (base extension : List Char) :
    withExtension (join base name) extension = join base ['.', '.'] := by
  have hnone : upToStem? (join base ['.', '.']) = none := by
    rw [upToStem?, fileName?_join_up, Option.map_none]
  by_cases hup : name = ['.', '.']
  · subst hup
    have hextension : extension? (join base ['.', '.']) = none := by
      rw [extension?, fileName?_join_up, Option.bind_none]
    rw [withExtension_of_none hextension, hnone, Option.elim_none]
  · have hextension := extension?_join h hup base
    cases hold : (splitExtension name).2 with
    | none => exact absurd ((stemOf_of_none hold).symm.trans hstem) h.ne_dot
    | some old =>
        have hjoin : join base name = join base ['.'] ++ '.' :: old := by
          rw [← join_append (by decide), ← hstem, stemOf_append hold]
        rw [hjoin] at hextension ⊢
        rw [withExtension_of_some (hextension.trans hold), ← join_append (by decide)]
        exact congrArg (Option.elim · _ _) hnone

/-- A name with another extension. Where a dot is left of the name, the two dots that remain once
the old extension is cut off stay without one. -/
def renamed (name extension : List Char) : List Char :=
  if stemOf name = ['.'] then ['.', '.'] else stemOf name ++ '.' :: extension

theorem withExtension_join_renamed (h : IsName name) (base extension : List Char) :
    withExtension (join base name) extension = join base (renamed name extension) := by
  rw [renamed]
  split
  · next hstem => exact withExtension_join_up h hstem base extension
  · next hstem => exact withExtension_join h hstem base extension

theorem IsName.renamed (h : IsName name) (hextension : '/' ∉ extension) :
    IsName (renamed name extension) := by
  rw [Files.renamed]
  split
  · exact .up
  · exact .append_extension (stemOf_ne_nil h.ne_nil) h.slash_not_mem_stemOf hextension

theorem append_extension_ne_up (hstem : stem ≠ []) (h : extension ≠ []) :
    stem ++ '.' :: extension ≠ ['.', '.'] := by
  intro heq
  have hlength := congrArg List.length heq
  have := List.length_pos_iff.mpr hstem
  have := List.length_pos_iff.mpr h
  simp only [List.length_append, List.length_cons, List.length_nil] at hlength
  omega

theorem renamed_inj {other : List Char} (hname : IsName name) (hother : IsName other)
    (h : extension ≠ []) :
    renamed name extension = renamed other extension ↔ stemOf name = stemOf other := by
  constructor
  · intro heq
    rw [renamed, renamed] at heq
    split at heq <;> split at heq
    · next h₁ h₂ => rw [h₁, h₂]
    · exact absurd heq.symm (append_extension_ne_up (stemOf_ne_nil hother.ne_nil) h)
    · exact absurd heq (append_extension_ne_up (stemOf_ne_nil hname.ne_nil) h)
    · exact List.append_cancel_right heq
  · intro heq
    rw [renamed, renamed, heq]

/-- The extension comes behind the whole name if the name had none. -/
theorem renamed_eq_append_iff (hname : IsName name) (h : extension ≠ []) :
    renamed name extension = name ++ '.' :: extension ↔ (splitExtension name).2 = none := by
  constructor
  · intro heq
    rw [renamed] at heq
    split at heq
    · exact absurd heq.symm (append_extension_ne_up hname.ne_nil h)
    · have hstem := List.append_cancel_right heq
      cases hold : (splitExtension name).2 with
      | none => rfl
      | some old =>
          have hlength := congrArg List.length (stemOf_append hold)
          rw [hstem, List.length_append, List.length_cons] at hlength
          omega
  · intro hnone
    have hstem := stemOf_of_none hnone
    rw [renamed, hstem, if_neg hname.ne_dot]

end Extension

section Count

variable {location part name : List Char}

theorem length_components_concat (location : List Char) (c : Char) :
    (components location).length ≤ (components (location ++ [c])).length := by
  by_cases hc : c = '/'
  · exact Nat.le_of_eq (by rw [hc, components_slash])
  induction location using location_induction with
  | nil => exact Nat.zero_le _
  | dot =>
      have hname : IsName (['.'] ++ [c]) := ⟨by simp, by simp, by simp [hc, eq_comm]⟩
      rw [components_of_isName hname]
      exact Nat.le_refl 1
  | slash before _ =>
      rw [components_slash, List.append_assoc, List.singleton_append, components_append_slash,
        List.length_append]
      exact Nat.le_add_right _ _
  | slash_dot before _ =>
      rw [components_slash_dot, List.append_assoc, List.cons_append, components_append_slash,
        List.length_append]
      exact Nat.le_add_right _ _
  | join base name h =>
      rw [← join_append h.ne_nil, components_join h, components_join (h.concat hc),
        List.length_append, List.length_append]
      exact Nat.le_refl _

theorem length_components_of_prefix (h : part <+: location) :
    (components part).length ≤ (components location).length := by
  obtain ⟨rest, rfl⟩ := h
  induction rest generalizing part with
  | nil => exact Nat.le_of_eq (by rw [List.append_nil])
  | cons c rest ih =>
      rw [List.append_cons]
      exact Nat.le_trans (length_components_concat part c) ih

/-- The name of a file is all that changes with its extension. -/
theorem length_components_upToStem?_elim {extension : List Char} (hextension : '/' ∉ extension)
    (location : List Char) :
    (components ((upToStem? location).elim location fun stem => stem ++ '.' :: extension)).length =
      (components location).length := by
  induction location using location_induction with
  | nil => rfl
  | dot => rfl
  | slash before ih =>
      rw [upToStem?_slash, components_slash]
      cases hstem : upToStem? before with
      | none => rw [Option.elim_none, components_slash]
      | some stem => rwa [hstem] at ih
  | slash_dot before ih =>
      rw [upToStem?_slash_dot, components_slash_dot]
      cases hstem : upToStem? before with
      | none => rw [Option.elim_none, components_slash_dot]
      | some stem => rwa [hstem] at ih
  | join base name h =>
      by_cases hup : name = ['.', '.']
      · rw [hup, upToStem?, fileName?_join_up, Option.map_none, Option.elim_none]
      · have hne := stemOf_ne_nil h.ne_nil
        have hname := IsName.append_extension hne h.slash_not_mem_stemOf hextension
        rw [upToStem?_join h hup, Option.elim_some, ← join_append hne, components_join hname,
          components_join h, List.length_append, List.length_append]
        rfl

theorem length_components_withExtension {extension : List Char} (hextension : '/' ∉ extension)
    (location : List Char) :
    (components (withExtension location extension)).length ≤ (components location).length := by
  obtain ⟨cut, hcut, heq⟩ : ∃ cut, cut <+: location ∧ withExtension location extension =
      (upToStem? cut).elim cut fun stem => stem ++ '.' :: extension := by
    cases h : extension? location with
    | none => exact ⟨location, List.prefix_refl _, withExtension_of_none h extension⟩
    | some old =>
        refine ⟨_, List.take_prefix (location.length - old.length) location, ?_⟩
        simp only [withExtension, h]
        split <;> simp [*]
  rw [heq, length_components_upToStem?_elim hextension]
  exact length_components_of_prefix hcut

/-- A dot in a folder is the folder, and with an extension it is no file in it. -/
theorem components_withExtension_join_dot {extension : List Char} (hextension : '/' ∉ extension)
    (h : IsName name) (base : List Char) :
    components (withExtension (join base ['.']) extension) ≠ components base ++ [name] := by
  intro heq
  have hjoin : join base ['.'] = asPrefix base ++ ['.'] := join_eq_append (by decide)
  rcases asPrefix_cases base with ⟨rfl, -⟩ | ⟨before, hfront, hbefore, -⟩
  · exact h.ne_dot (List.singleton_inj.mp heq).symm
  · have hle := length_components_withExtension hextension (join base ['.'])
    rw [heq, hjoin, hfront, List.append_assoc, List.singleton_append, components_slash_dot,
      hbefore, List.length_append] at hle
    exact absurd hle (by simp)

end Count

end Files

end CurlyTemplate
