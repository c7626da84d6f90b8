import CurlyTemplate.Proofs.Syntax.Callees

/-!
# The parts of a path

A path is cut at its dots, and an `@` or a `this` in front of it becomes a flag. Nothing is
lost by that: flags and parts spell the path as it was written, and the flags tell how it
starts (`Path.splits_ofString`). No other flags and parts do the same (`Path.Splits.unique`).
-/

namespace CurlyTemplate

namespace Text

variable {sep : Char} {s first : List Char} {parts : List (List Char)}

/-- A text starts with a segment when it is that segment or goes on with a separator. -/
theorem head?_segments_eq_some_iff (h : sep ∉ first) :
    (segments sep s).head? = some first ↔ s = first ∨ first ++ [sep] <+: s := by
  constructor
  · intro hhead
    obtain ⟨others, hs⟩ := List.head?_eq_some_iff.mp hhead
    have hjoin := joinSegments_segments sep s
    rw [hs] at hjoin
    cases others with
    | nil => exact .inl hjoin.symm
    | cons t rest =>
        rw [joinSegments_cons (List.cons_ne_nil t rest), List.append_cons] at hjoin
        exact .inr ⟨_, hjoin⟩
  · rintro (rfl | ⟨rest, rfl⟩)
    · rw [segments_of_not_mem h, List.head?_cons]
    · rw [List.append_assoc, List.singleton_append, segments_append_cons,
        segments_of_not_mem h, List.singleton_append, List.head?_cons]

/-- Segments that were joined are found again. -/
theorem segments_joinSegments (hne : parts ≠ []) (h : ∀ part ∈ parts, sep ∉ part) :
    segments sep (joinSegments sep parts) = parts := by
  induction parts with
  | nil => exact absurd rfl hne
  | cons part rest ih =>
      obtain ⟨hpart, hrest⟩ := List.forall_mem_cons.mp h
      by_cases hlast : rest = []
      · subst hlast
        exact segments_of_not_mem hpart
      · rw [joinSegments_cons hlast, segments_append_cons, segments_of_not_mem hpart,
          ih hlast hrest, List.singleton_append]

theorem joinSegments_eq_intercalate (sep : Char) (parts : List (List Char)) :
    joinSegments sep parts = [sep].intercalate parts := by
  induction parts with
  | nil => rfl
  | cons part rest ih =>
      cases rest with
      | nil => exact List.intercalate_singleton.symm
      | cons next more =>
          rw [joinSegments_cons (List.cons_ne_nil next more), ih, List.intercalate_cons_cons,
            List.append_assoc, List.singleton_append]

end Text

namespace Path

/-- The parts of a path, with `this` in front of them where the path starts there. -/
def segments (p : Path) : List String := if p.this then "this" :: p.parts else p.parts

/-- A path put together again from its flags and parts. -/
def spelled (p : Path) : String :=
  (if p.data then "@" else "") ++ ".".intercalate p.segments

/-- The flags and parts of a path are those of a text. -/
structure Splits (p : Path) (s : String) : Prop where
  /-- In `@this` the `this` is the name of the argument. -/
  not_data_and_this : ¬ (p.data = true ∧ p.this = true)
  dot_not_mem : ∀ part ∈ p.parts, '.' ∉ part.toList
  /-- The empty text has one part, which is empty. -/
  segments_ne_nil : p.segments ≠ []
  spelled_eq : p.spelled = s
  data_iff : p.data = true ↔ s.startsWith "@" = true
  this_iff : p.this = true ↔ s = "this" ∨ s.startsWith "this." = true

variable {p q : Path} {s : String}

theorem mem_segments_of_mem_parts {part : String} (h : part ∈ p.parts) : part ∈ p.segments := by
  rw [segments]
  split
  · exact List.mem_cons_of_mem _ h
  · exact h

theorem toList_spelled (p : Path) :
    p.spelled.toList = (if p.data then ['@'] else []) ++
      Text.joinSegments '.' (p.segments.map String.toList) := by
  rw [spelled, String.toList_append, String.toList_intercalate,
    Text.joinSegments_eq_intercalate, apply_ite String.toList]
  rfl

/-- Where no `@` stands in front, the segments of the text tell whether it starts at `this`. -/
theorem ofChars_of_not_argument {written : List Char} (h : ¬ ['@'] <+: written) (loc : Span) :
    (ofChars written loc).data = false ∧
      ((ofChars written loc).this = true ↔
        (Text.segments '.' written).head? = some "this".toList) ∧
      (ofChars written loc).segments = (Text.segments '.' written).map String.ofList := by
  simp only [ofChars]
  split
  next body => exact absurd (List.prefix_append ['@'] body) h
  next =>
    split
    next parts hthis =>
      rw [hthis]
      exact ⟨rfl, iff_of_true rfl rfl, rfl⟩
    next hthis =>
      refine ⟨rfl, iff_of_false Bool.false_ne_true ?_, rfl⟩
      intro hhead
      obtain ⟨parts, hparts⟩ := List.head?_eq_some_iff.mp hhead
      exact hthis parts rfl hparts

/-- Reading cuts what is left behind an `@`. A `this` is looked for where there was none. -/
theorem exists_body_ofChars (written : List Char) (loc : Span) :
    ∃ body, written = (if (ofChars written loc).data then ['@'] else []) ++ body ∧
      ((ofChars written loc).data = true ↔ ['@'] <+: written) ∧
      ((ofChars written loc).this = true ↔ (ofChars written loc).data = false ∧
        (Text.segments '.' body).head? = some "this".toList) ∧
      (ofChars written loc).segments = (Text.segments '.' body).map String.ofList := by
  by_cases hdata : ['@'] <+: written
  · obtain ⟨body, rfl⟩ := hdata
    exact ⟨body, rfl, iff_of_true rfl (List.prefix_append _ _),
      iff_of_false Bool.false_ne_true (fun h => Bool.false_ne_true h.1.symm), rfl⟩
  · obtain ⟨hlookup, hthis, hsegments⟩ := ofChars_of_not_argument hdata loc
    refine ⟨written, ?_, ?_, ?_, hsegments⟩
    · rw [hlookup]
      rfl
    · rw [hlookup]
      exact iff_of_false Bool.false_ne_true hdata
    · rw [hthis, hlookup, eq_self, true_and]

section Reading

variable (s : String) (loc : Span)

theorem data_ofString : (ofString s loc).data = true ↔ s.startsWith "@" = true := by
  obtain ⟨_, _, hdata, _, _⟩ := exists_body_ofChars s.toList loc
  rw [ofString, hdata, String.startsWith_string_iff]
  rfl

theorem this_ofString :
    (ofString s loc).this = true ↔ s = "this" ∨ s.startsWith "this." = true := by
  obtain ⟨body, hbody, hdata, hthis, _⟩ := exists_body_ofChars s.toList loc
  rw [ofString, hthis, String.startsWith_string_iff, ← String.toList_inj]
  cases hargument : (ofChars s.toList loc).data with
  | true =>
      -- What starts with an `@` starts with no `t`, whatever stands behind.
      obtain ⟨rest, hrest⟩ := hdata.mp hargument
      refine iff_of_false (fun h => Bool.false_ne_true h.1.symm) ?_
      rw [← hrest]
      simp
  | false =>
      have hwhole : s.toList = body := by simpa [hargument] using hbody
      have hdot : '.' ∉ "this".toList := by decide
      rw [hwhole, eq_self, true_and, Text.head?_segments_eq_some_iff hdot]
      rfl

theorem not_data_and_this_ofString :
    ¬ ((ofString s loc).data = true ∧ (ofString s loc).this = true) := by
  obtain ⟨_, _, _, hthis, _⟩ := exists_body_ofChars s.toList loc
  rintro ⟨hargument, hstart⟩
  have hlookup := (hthis.mp hstart).1
  exact Bool.false_ne_true (hlookup.symm.trans hargument)

theorem dot_not_mem_ofString {part : String} (h : part ∈ (ofString s loc).parts) :
    '.' ∉ part.toList := by
  obtain ⟨body, _, _, _, hsegments⟩ := exists_body_ofChars s.toList loc
  have hmem := mem_segments_of_mem_parts h
  rw [ofString, hsegments] at hmem
  obtain ⟨segment, hsegment, rfl⟩ := List.mem_map.mp hmem
  rw [String.toList_ofList]
  exact Text.not_mem_of_mem_segments hsegment

theorem segments_ofString_ne_nil : (ofString s loc).segments ≠ [] := by
  obtain ⟨body, _, _, _, hsegments⟩ := exists_body_ofChars s.toList loc
  rw [ofString, hsegments, ne_eq, List.map_eq_nil_iff]
  exact Text.segments_ne_nil '.' body

theorem spelled_ofString : (ofString s loc).spelled = s := by
  obtain ⟨body, hbody, _, _, hsegments⟩ := exists_body_ofChars s.toList loc
  have hpieces : (ofString s loc).segments.map String.toList = Text.segments '.' body := by
    rw [ofString, hsegments, List.map_map]
    exact List.map_id'' (fun _ => String.toList_ofList) _
  rw [← String.toList_inj, toList_spelled, hpieces, Text.joinSegments_segments]
  exact hbody.symm

/-- A path read from a text has flags and parts that spell it. -/
theorem splits_ofString : (ofString s loc).Splits s where
  not_data_and_this := not_data_and_this_ofString s loc
  dot_not_mem _ := dot_not_mem_ofString s loc
  segments_ne_nil := segments_ofString_ne_nil s loc
  spelled_eq := spelled_ofString s loc
  data_iff := data_ofString s loc
  this_iff := this_ofString s loc

end Reading

example : (ofString "@this.x" .synthetic).parts = ["this", "x"] := rfl

namespace Splits

theorem dot_not_mem_segments (h : p.Splits s) : ∀ part ∈ p.segments.map String.toList,
    '.' ∉ part := by
  rw [List.forall_mem_map, segments]
  split
  · exact List.forall_mem_cons.mpr ⟨by decide, h.dot_not_mem⟩
  · exact h.dot_not_mem

/-- The flags and parts of a text are determined by it. -/
theorem unique (hp : p.Splits s) (hq : q.Splits s) :
    p.data = q.data ∧ p.this = q.this ∧ p.parts = q.parts := by
  have hdata : p.data = q.data := Bool.eq_iff_iff.mpr (hp.data_iff.trans hq.data_iff.symm)
  have hthis : p.this = q.this := Bool.eq_iff_iff.mpr (hp.this_iff.trans hq.this_iff.symm)
  have hspelled : p.spelled = q.spelled := hp.spelled_eq.trans hq.spelled_eq.symm
  rw [← String.toList_inj, toList_spelled, toList_spelled, hdata,
    List.append_cancel_left_eq] at hspelled
  have hsegments := congrArg (Text.segments '.') hspelled
  rw [Text.segments_joinSegments (by simpa using hp.segments_ne_nil) hp.dot_not_mem_segments,
    Text.segments_joinSegments (by simpa using hq.segments_ne_nil) hq.dot_not_mem_segments,
    List.map_inj_right fun _ _ => String.toList_inj.mp, segments, segments, hthis] at hsegments
  refine ⟨hdata, hthis, ?_⟩
  split at hsegments
  · exact (List.cons.inj hsegments).2
  · exact hsegments

end Splits

end Path

end CurlyTemplate
