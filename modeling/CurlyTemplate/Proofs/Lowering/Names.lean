import CurlyTemplate.Proofs.Lowering.Capture
import CurlyTemplate.Proofs.Text.Dashed

/-!
# Components by name

A tag of letters that starts with a capital and is not in scope invokes a component by its
dashed name: by a path when it has a second capital, and else by a string that is looked up
(`classify_of_capitalized`). The name tells the tag, and the call tells the name, so that
elements with different tags never come out as calls of one component
(`calls_of_capitalized`), whatever is in scope where each of them stands.
-/

namespace CurlyTemplate

namespace Component

/-- A tag of ASCII letters with a capital in front, which is not the name of a local value. -/
structure CapitalizedTag (scope : Scope) (tag : List Char) : Prop where
  letters : ∀ c ∈ tag, c.isAlpha = true
  capital : tag.head?.any Char.isUpper = true
  free : scope.contains (String.ofList tag) = false

/-- The component with the dashed name of a tag. -/
def Invocation.named (tag : List Char) (selfClosing hasSplat : Bool) : Invocation :=
  if 2 ≤ tag.countP Char.isUpper then
    .static (Text.dasherize (String.ofList tag)) selfClosing hasSplat
  else .dynamic (.registry (Text.dasherize (String.ofList tag))) selfClosing hasSplat

/-- What the call of such a component has in front, and what it passes by position. -/
def namedFront (tag : List Char) : Expression × List Expression :=
  if 2 ≤ tag.countP Char.isUpper then
    (Build.path (Text.dasherize (String.ofList tag)), [])
  else (Build.path "component", [Build.string (Text.dasherize (String.ofList tag))])

variable {source source' : Source} {scope scope' : Scope} {s t : List Char}

namespace CapitalizedTag

theorem exists_cons (h : CapitalizedTag scope t) :
    ∃ c rest, t = c :: rest ∧ c.isUpper = true := by
  cases t with
  | nil => cases h.capital
  | cons c rest => exact ⟨c, rest, rfl, h.capital⟩

theorem headSegment (h : CapitalizedTag scope t) : Text.headSegment '.' t = t := by
  rw [Text.headSegment, List.takeWhile_eq_self_iff]
  intro c hc
  have hletter := h.letters c hc
  refine decide_eq_true ?_
  rintro rfl
  cases hletter

theorem classifyTag_eq (h : CapitalizedTag scope t) (selfClosing hasSplat : Bool) :
    classifyTag scope t selfClosing hasSplat = .named t selfClosing hasSplat := by
  obtain ⟨c, rest, rfl, hupper⟩ := h.exists_cons
  have hargument : (c :: rest).head? ≠ some '@' := by
    rintro hc
    cases Option.some.inj hc
    cases hupper
  have hthis : "this.".toList.isPrefixOf (c :: rest) ≠ true := by
    intro hprefix
    have hc := (List.cons_prefix_cons.mp (List.isPrefixOf_iff_prefix.mp hprefix)).1
    subst hc
    cases hupper
  have hlocal : scope.contains (String.ofList (Text.headSegment '.' (c :: rest))) ≠ true := by
    rw [h.headSegment, h.free]
    exact Bool.false_ne_true
  have hcapital : ¬ (!(c :: rest).head?.any Text.isCapital) = true := by
    simp [Text.isCapital_of_isUpper hupper]
  have hname : Text.dasherize (String.ofList (c :: rest)) =
      String.ofList (Text.dashed false (c :: rest)) := by
    rw [Text.dasherize, String.toList_ofList]
  have hdash := Text.dash_mem_dashed_iff h.letters h.capital
  rw [classifyTag, if_neg hargument, if_neg hthis, if_neg hlocal, if_neg hcapital,
    Invocation.named, hname]
  simp only [List.contains_iff_mem, hdash]

theorem dasherize_inj (hs : CapitalizedTag scope s) (ht : CapitalizedTag scope' t) :
    Text.dasherize (String.ofList s) = Text.dasherize (String.ofList t) ↔ s = t := by
  rw [Text.dasherize, Text.dasherize, String.ofList_inj, String.toList_ofList,
    String.toList_ofList]
  exact Text.dashed_inj hs.letters ht.letters hs.capital ht.capital

end CapitalizedTag

theorem written_ofString (written : String) (loc : Span) :
    (Path.ofString written loc).written = written := by
  simp only [Path.ofString, Path.ofChars, String.ofList_toList]

theorem path_inj {name name' : String} : Build.path name = Build.path name' ↔ name = name' := by
  refine ⟨fun h => ?_, fun h => h ▸ rfl⟩
  have hwritten := congrArg Path.written (Expression.path.inj h)
  rwa [written_ofString, written_ofString] at hwritten

/-- The front of a call tells the name, for a path goes without positional arguments and a
string does not. -/
theorem dasherize_eq_of_namedFront (h : namedFront s = namedFront t) :
    Text.dasherize (String.ofList s) = Text.dasherize (String.ofList t) := by
  rw [namedFront, namedFront] at h
  split at h <;> split at h
  · exact path_inj.mp (congrArg Prod.fst h)
  · cases congrArg Prod.snd h
  · cases congrArg Prod.snd h
  · have hparams := congrArg Prod.snd h
    simpa [Build.string] using hparams

theorem lowerElement_named (e : Element) (tag : List Char) (selfClosing hasSplat : Bool) :
    ∃ y call, (lowerElement e (.named tag selfClosing hasSplat)).1 = .replace y ∧
      y.call? = some call ∧ (call.path, call.params) = namedFront tag := by
  rw [Invocation.named, namedFront]
  split
  · cases selfClosing <;> exact ⟨_, _, rfl, rfl, rfl⟩
  · cases selfClosing <;> exact ⟨_, _, rfl, rfl, rfl⟩

/-- An element whose tag has capitals and other letters alone, and is not in scope, is
replaced by a call of the component with the dashed name of the tag: by a path when there
are two capitals, by a string when there is one. Elements with different tags of this kind
have different names, and what replaces them calls different components. -/
theorem calls_of_capitalized {d e : Element} (hd : CapitalizedTag scope (source.tagName d))
    (he : CapitalizedTag scope' (source'.tagName e)) :
    classify source scope d =
        .named (source.tagName d) (source.selfClosing d) (hasSplat d) ∧
      classify source' scope' e =
        .named (source'.tagName e) (source'.selfClosing e) (hasSplat e) ∧
      (Text.dasherize (String.ofList (source.tagName d)) =
          Text.dasherize (String.ofList (source'.tagName e)) ↔
        source.tagName d = source'.tagName e) ∧
      ∃ y z c c', (lowerElement d (classify source scope d)).1 = .replace y ∧
        (lowerElement e (classify source' scope' e)).1 = .replace z ∧
        y.call? = some c ∧ z.call? = some c' ∧
        (c.path = c'.path ∧ c.params = c'.params ↔ source.tagName d = source'.tagName e) := by
  have hdnamed : classify source scope d = .named _ _ _ := hd.classifyTag_eq _ _
  have henamed : classify source' scope' e = .named _ _ _ := he.classifyTag_eq _ _
  have hnames := hd.dasherize_inj he
  refine ⟨hdnamed, henamed, hnames, ?_⟩
  rw [hdnamed, henamed]
  obtain ⟨y, c, hy, hc, hfront⟩ := lowerElement_named d (source.tagName d)
    (source.selfClosing d) (hasSplat d)
  obtain ⟨z, c', hz, hc', hfront'⟩ := lowerElement_named e (source'.tagName e)
    (source'.selfClosing e) (hasSplat e)
  refine ⟨y, z, c, c', hy, hz, hc, hc', ?_⟩
  rw [← Prod.mk.injEq, hfront, hfront']
  exact ⟨fun h => hnames.mp (dasherize_eq_of_namedFront h), fun h => congrArg namedFront h⟩

/-- `<XMLHttp>` -/
def acronym : Element := Build.element "XMLHttp" .synthetic

/-- `<XmlHttp>` -/
def acronymAsWord : Element := Build.element "XmlHttp" .synthetic

/-- The two spellings are different components. -/
theorem calls_of_capitalized_acronym :
    CapitalizedTag .empty (Source.unavailable.tagName acronym) ∧
      CapitalizedTag .empty (Source.unavailable.tagName acronymAsWord) ∧
      classify .unavailable .empty acronym = .static "x-m-l-http" false false ∧
      classify .unavailable .empty acronymAsWord = .static "xml-http" false false ∧
      ∃ y z c c', (lowerElement acronym (classify .unavailable .empty acronym)).1 = .replace y ∧
        (lowerElement acronymAsWord (classify .unavailable .empty acronymAsWord)).1 = .replace z ∧
        y.call? = some c ∧ z.call? = some c' ∧ ¬ (c.path = c'.path ∧ c.params = c'.params) := by
  have hacronym : CapitalizedTag .empty (Source.unavailable.tagName acronym) :=
    ⟨List.all_eq_true.mp rfl, rfl, rfl⟩
  have hword : CapitalizedTag .empty (Source.unavailable.tagName acronymAsWord) :=
    ⟨List.all_eq_true.mp rfl, rfl, rfl⟩
  obtain ⟨hclassify, hclassify', -, y, z, c, c', hy, hz, hc, hc', hfront⟩ :=
    calls_of_capitalized hacronym hword
  refine ⟨hacronym, hword, hclassify.trans rfl, hclassify'.trans rfl, y, z, c, c',
    hy, hz, hc, hc', fun h => ?_⟩
  cases hfront.mp h

end Component

end CurlyTemplate
