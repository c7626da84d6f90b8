import CurlyTemplate.Proofs.Lowering.Capture
import Mathlib.Data.List.Forall2

/-!
# The attributes of an element as the arguments of its call

What a call takes over from the attributes of the element it stands for is said here by
relations between what was written and what has come of it: an expression for the value of
each attribute, a pair for each attribute, the pairs of the three hashes in their order. Each
of the relations is the graph of one of the functions that build the call, so it leaves no
choice. The hash of every replacement satisfies them (`relocates_lowerElement`).

The argument that gathers attributes is told by its place and its value. An element may have
an attribute of its own that makes an argument of the same name.
-/

namespace CurlyTemplate

open Component (mustacheExpression partExpression valueExpression)

/-- What a call in curlies is as an argument: its path, if nothing is passed to it. -/
inductive Mustache.Means (m : Mustache) : Expression → Prop
  | bare (hparams : m.call.params = []) (hpairs : m.call.hash.pairs = []) : m.Means m.call.path
  | call (h : m.call.params ≠ [] ∨ m.call.hash.pairs ≠ []) : m.Means (.sub m.call m.loc)

/-- What a piece of a quoted value is as an argument. -/
inductive ConcatPart.Means : ConcatPart → Expression → Prop
  | text (t : TextNode) : Means (.text t) (.string t.chars .synthetic)
  | mustache {m : Mustache} {value : Expression} (h : m.Means value) : Means (.mustache m) value

/-- What the value of an attribute is as an argument. -/
inductive AttributeValue.Means : AttributeValue → Expression → Prop
  | text (t : TextNode) : Means (.text t) (.string t.chars .synthetic)
  | mustache {m : Mustache} {value : Expression} (h : m.Means value) : Means (.mustache m) value
  | concat {parts : List ConcatPart} {params : List Expression}
      (h : List.Forall₂ ConcatPart.Means parts params) (loc : Span) :
      Means (.concat parts loc) (.sub ⟨Build.path "concat", params, Build.hash []⟩ .synthetic)

/-- A pair carries an attribute, under whatever name. -/
structure HashPair.Carries (pair : HashPair) (a : Attribute) : Prop where
  value : a.value.Means pair.value
  loc : pair.loc = a.loc

/-- Whether the name of an attribute starts with `@`. -/
def Attribute.isArgument (a : Attribute) : Bool := a.name.toList.head? = some '@'

/-- Whether an attribute is neither an argument nor the one that forwards attributes. -/
def Attribute.isPlain (a : Attribute) : Bool := !a.isArgument && a.name != "...attributes"

namespace Component

/-- The entry for the gathered attributes. -/
inductive InvocationEntry (plain : List Attribute) : List HashPair → Prop
  | none (h : plain = []) : InvocationEntry plain []
  | some (h : plain ≠ []) {pairs : List HashPair}
      (hpairs : List.Forall₂ (fun a pair => pair.key = a.name ∧ pair.Carries a) plain pairs) :
      InvocationEntry plain
        [Build.pair "invocation" (Build.sub (Build.path "hash") [] (Build.hash pairs))]

/-- The entry for the attributes of the caller. -/
inductive SplatEntry : Bool → List HashPair → Prop
  | none : SplatEntry false []
  | some : SplatEntry true [Build.pair "splat" (Build.path "__ANGLE_ATTRS__")]

/-- The argument that gathers what is not passed one by one, if there is anything. -/
inductive GatheredPair (plain : List Attribute) (splat : Bool) : List HashPair → Prop
  | none (hplain : plain = []) (hsplat : splat = false) : GatheredPair plain splat []
  | some (h : plain ≠ [] ∨ splat = true) {invocation forwarded : List HashPair}
      (hinvocation : InvocationEntry plain invocation) (hforwarded : SplatEntry splat forwarded) :
      GatheredPair plain splat
        [Build.pair "__ANGLE_ATTRS__"
          (Build.sub (Build.path "-merge-refs") [] (Build.hash (invocation ++ forwarded)))]

/-- The arguments of a call are the attributes of an element: first those whose name starts
with `@`, without it, and then what is left, gathered. -/
inductive Relocates (attributes : List Attribute) (splat : Bool) : Hash → Prop
  | intro {lead gathered : List HashPair}
      (hlead : List.Forall₂ (fun a pair => a.name = "@" ++ pair.key ∧ pair.Carries a)
        (attributes.filter Attribute.isArgument) lead)
      (hgathered : GatheredPair (attributes.filter Attribute.isPlain) splat gathered) :
      Relocates attributes splat (Build.hash (lead ++ gathered))

end Component

section Values

variable {value : Expression}

theorem forall₂_iff_map_eq {α β : Type} {R : α → β → Prop} {f : α → β} {as : List α}
    {bs : List β} (h : ∀ a ∈ as, ∀ b, R a b ↔ f a = b) :
    List.Forall₂ R as bs ↔ as.map f = bs := by
  induction as generalizing bs with
  | nil => rw [List.forall₂_nil_left_iff, List.map_nil, eq_comm]
  | cons a rest ih =>
      have hrest (others : List β) : List.Forall₂ R rest others ↔ rest.map f = others :=
        ih fun x hx => h x (List.mem_cons_of_mem a hx)
      rw [List.forall₂_cons_left_iff, List.map_cons]
      constructor
      · rintro ⟨b, others, hb, hothers, rfl⟩
        rw [(h a List.mem_cons_self b).mp hb, (hrest others).mp hothers]
      · rintro rfl
        exact ⟨_, _, (h a List.mem_cons_self _).mpr rfl, (hrest _).mpr rfl, rfl⟩

theorem Mustache.means_iff {m : Mustache} : m.Means value ↔ mustacheExpression m = value := by
  have hbare : m.call.isBare = true ↔ m.call.params = [] ∧ m.call.hash.pairs = [] := by
    rw [Call.isBare, Bool.and_eq_true, List.isEmpty_iff, List.isEmpty_iff]
  constructor
  · rintro (⟨hparams, hpairs⟩ | h)
    · exact if_pos (hbare.mpr ⟨hparams, hpairs⟩)
    · refine if_neg fun hcall => ?_
      obtain ⟨hparams, hpairs⟩ := hbare.mp hcall
      exact h.elim (absurd hparams) (absurd hpairs)
  · rintro rfl
    by_cases hcall : m.call.isBare = true
    · rw [mustacheExpression, if_pos hcall]
      exact .bare (hbare.mp hcall).1 (hbare.mp hcall).2
    · rw [mustacheExpression, if_neg hcall]
      exact .call (not_and_or.mp (mt hbare.mpr hcall))

theorem ConcatPart.means_iff {part : ConcatPart} :
    part.Means value ↔ partExpression part = value := by
  cases part with
  | text t =>
      constructor
      · rintro ⟨⟩
        rfl
      · rintro rfl
        exact .text t
  | mustache m =>
      constructor
      · rintro (_ | ⟨h⟩)
        exact Mustache.means_iff.mp h
      · intro h
        exact .mustache (Mustache.means_iff.mpr h)

theorem AttributeValue.means_iff {written : AttributeValue} :
    written.Means value ↔ valueExpression written = value := by
  have hparts {parts : List ConcatPart} {params : List Expression} :
      List.Forall₂ ConcatPart.Means parts params ↔ parts.map partExpression = params :=
    forall₂_iff_map_eq fun _ _ _ => ConcatPart.means_iff
  cases written with
  | text t =>
      constructor
      · rintro ⟨⟩
        rfl
      · rintro rfl
        exact .text t
  | mustache m =>
      constructor
      · rintro (_ | ⟨h⟩)
        exact Mustache.means_iff.mp h
      · intro h
        exact .mustache (Mustache.means_iff.mpr h)
  | concat parts loc =>
      constructor
      · rintro (_ | _ | ⟨h⟩)
        rw [← hparts.mp h]
        rfl
      · rintro rfl
        exact .concat (hparts.mpr rfl) loc

end Values

namespace Component

variable {a : Attribute} {attributes : List Attribute} {pair : HashPair} {pairs : List HashPair}
  {splat : Bool} {key : String}

theorem carries_iff : pair.key = key ∧ pair.Carries a ↔ attributePair key a = pair := by
  constructor
  · rintro ⟨rfl, hvalue, hloc⟩
    cases pair
    exact congrArg₂ (HashPair.mk _) (AttributeValue.means_iff.mp hvalue) hloc.symm
  · rintro rfl
    exact ⟨rfl, AttributeValue.means_iff.mpr rfl, rfl⟩

/-- The name of an argument, when the attribute is one. -/
def argumentKey (a : Attribute) : String := String.ofList a.name.toList.tail

theorem argumentName?_eq (a : Attribute) :
    argumentName? a = if a.isArgument then some (argumentKey a) else none := by
  rw [argumentName?, Attribute.isArgument, argumentKey]
  cases a.name.toList with
  | nil => rfl
  | cons c rest =>
      by_cases h : c = '@'
      · simp [h]
      · simp [h]

theorem name_eq_append_iff (h : a.isArgument = true) : a.name = "@" ++ key ↔ key = argumentKey a := by
  have hname : ∃ rest, a.name.toList = '@' :: rest := by
    rw [Attribute.isArgument, decide_eq_true_iff] at h
    exact List.head?_eq_some_iff.mp h
  obtain ⟨rest, hrest⟩ := hname
  rw [argumentKey, hrest, List.tail_cons, ← String.toList_inj, ← String.toList_inj, hrest,
    String.toList_append, String.toList_ofList, eq_comm]
  simp

theorem isArgument_ne_splat (h : a.isArgument = true) : (a.name != splatName) = true := by
  rw [bne_iff_ne]
  intro hname
  rw [Attribute.isArgument, hname] at h
  revert h
  decide

theorem argumentPairs_ownAttributes :
    argumentPairs (ownAttributes attributes) =
      (attributes.filter Attribute.isArgument).map fun a => attributePair (argumentKey a) a := by
  rw [argumentPairs, ownAttributes, ← List.filterMap_eq_map, List.filterMap_filter,
    List.filterMap_filter]
  congr 1
  funext a
  rw [argumentName?_eq]
  cases h : a.isArgument with
  | true => rw [if_pos (isArgument_ne_splat h)]; rfl
  | false => cases a.name != splatName <;> rfl

theorem plainAttributes_eq : plainAttributes attributes = attributes.filter Attribute.isPlain := by
  rw [plainAttributes, ownAttributes, List.filter_filter]
  congr 1
  funext a
  rw [argumentName?_eq, Attribute.isPlain]
  cases a.isArgument <;> rfl

theorem argumentPairs_iff :
    List.Forall₂ (fun a pair => a.name = "@" ++ pair.key ∧ pair.Carries a)
        (attributes.filter Attribute.isArgument) pairs ↔
      argumentPairs (ownAttributes attributes) = pairs := by
  rw [argumentPairs_ownAttributes]
  refine forall₂_iff_map_eq fun a ha pair => ?_
  rw [name_eq_append_iff (List.mem_filter.mp ha).2, carries_iff]

theorem invocationEntry_iff {plain : List Attribute} :
    InvocationEntry plain pairs ↔
      (if plain.isEmpty then []
        else [Build.pair "invocation" (Build.sub (Build.path hashHelper) []
          (Build.hash (plain.map fun a => attributePair a.name a)))]) = pairs := by
  have hplain {pairs : List HashPair} :
      List.Forall₂ (fun a pair => pair.key = a.name ∧ pair.Carries a) plain pairs ↔
        plain.map (fun a => attributePair a.name a) = pairs :=
    forall₂_iff_map_eq fun _ _ _ => carries_iff
  by_cases hempty : plain = []
  · rw [if_pos (List.isEmpty_iff.mpr hempty)]
    constructor
    · rintro (_ | ⟨hne, -⟩)
      · rfl
      · exact absurd hempty hne
    · rintro rfl
      exact .none hempty
  · rw [if_neg (mt List.isEmpty_iff.mp hempty)]
    constructor
    · rintro (hnone | ⟨-, hpairs⟩)
      · exact absurd hnone hempty
      · rw [← hplain.mp hpairs]
        rfl
    · rintro rfl
      exact .some hempty (hplain.mpr rfl)

theorem splatEntry_iff :
    SplatEntry splat pairs ↔
      (if splat then [Build.pair "splat" (Build.path attributesName)] else []) = pairs := by
  constructor
  · rintro ⟨⟩ <;> rfl
  · rintro rfl
    cases splat
    · exact .none
    · exact .some

theorem gatheredPair_iff {plain : List Attribute} :
    GatheredPair plain splat pairs ↔
      (if splat || !plain.isEmpty then
        [Build.pair attributesName (mergedAttributes plain splat)] else []) = pairs := by
  by_cases h : plain ≠ [] ∨ splat = true
  · have hsome : (splat || !plain.isEmpty) = true := by
      simpa [or_comm] using h
    rw [if_pos hsome]
    constructor
    · rintro (⟨hplain, hsplat⟩ | ⟨-, hinvocation, hforwarded⟩)
      · simp [hplain, hsplat] at h
      · rw [← invocationEntry_iff.mp hinvocation, ← splatEntry_iff.mp hforwarded]
        rfl
    · rintro rfl
      exact .some h (invocationEntry_iff.mpr rfl) (splatEntry_iff.mpr rfl)
  · obtain ⟨hplain, hsplat⟩ := not_or.mp h
    have hplain : plain = [] := not_not.mp hplain
    have hsplat : splat = false := Bool.eq_false_iff.mpr hsplat
    rw [hplain, hsplat] at h ⊢
    constructor
    · rintro (_ | ⟨h', -⟩)
      · rfl
      · exact absurd h' h
    · rintro rfl
      exact .none rfl rfl

/-- There is one hash that takes over the attributes of an element. -/
theorem relocates_iff {hash : Hash} :
    Relocates attributes splat hash ↔ invocationHash attributes splat = hash := by
  constructor
  · rintro ⟨hlead, hgathered⟩
    rw [← plainAttributes_eq] at hgathered
    rw [← argumentPairs_iff.mp hlead, ← gatheredPair_iff.mp hgathered]
    rfl
  · rintro rfl
    refine .intro (argumentPairs_iff.mpr rfl) ?_
    rw [← plainAttributes_eq]
    exact gatheredPair_iff.mpr rfl

/-- Each attribute but the one that forwards attributes is passed in one of the two ways. -/
theorem perm_ownAttributes :
    (attributes.filter Attribute.isArgument ++ attributes.filter Attribute.isPlain).Perm
      (attributes.filter (·.name != "...attributes")) := by
  have hargument : (attributes.filter (·.name != splatName)).filter Attribute.isArgument =
      attributes.filter Attribute.isArgument := by
    rw [List.filter_filter]
    refine List.filter_congr fun a _ => ?_
    cases h : a.isArgument with
    | true => rw [isArgument_ne_splat h]; rfl
    | false => rfl
  have hplain : (attributes.filter (·.name != splatName)).filter (!·.isArgument) =
      attributes.filter Attribute.isPlain := List.filter_filter
  rw [← hargument, ← hplain]
  exact List.filter_append_perm _ _

theorem hasSplat_iff {e : Element} :
    hasSplat e = true ↔ ∃ a ∈ e.attributes, a.name = "...attributes" := by
  simp [hasSplat, splatName]

theorem lowerElement_of_closing {e : Element} {i : Invocation} {closing : Bool}
    (h : i.closing? = some closing) :
    ∃ y call, (lowerElement e i).1 = .replace y ∧ y.call? = some call ∧
      call.hash = invocationHash e.attributes i.hasSplat := by
  cases i with
  | markup hasSplat => cases h
  | static name selfClosing hasSplat =>
      cases selfClosing <;> exact ⟨_, _, rfl, rfl, rfl⟩
  | dynamic callee selfClosing hasSplat =>
      cases selfClosing <;> exact ⟨_, _, rfl, rfl, rfl⟩

/-- Whatever component an element invokes, it is replaced by a call whose arguments are the
attributes of the element, and nothing but these. The attributes of the caller are among
them just when one of the attributes says so, however often. -/
theorem relocates_lowerElement (e : Element) (i : Invocation) {closing : Bool}
    (h : i.closing? = some closing) :
    (∃ y call, (lowerElement e i).1 = .replace y ∧ y.call? = some call ∧
      ∀ hash, Relocates e.attributes i.hasSplat hash ↔ call.hash = hash) ∧
    (e.attributes.filter Attribute.isArgument ++ e.attributes.filter Attribute.isPlain).Perm
      (e.attributes.filter (·.name != "...attributes")) ∧
    ∀ source scope, (classify source scope e).hasSplat = true ↔
      ∃ a ∈ e.attributes, a.name = "...attributes" := by
  refine ⟨?_, perm_ownAttributes, fun source scope => ?_⟩
  · obtain ⟨y, call, hy, hcall, hhash⟩ := lowerElement_of_closing (e := e) h
    refine ⟨y, call, hy, hcall, fun hash => ?_⟩
    rw [relocates_iff, hhash]
  · rw [classify, hasSplat_classifyTag, hasSplat_iff]

/-- `<FooBar @a="1" class="x {{y}}" ...attributes @b={{c}} title={{t}} ...attributes />` -/
def attributed : Element :=
  let bare (path : String) : Mustache :=
    Build.mustache ⟨Build.path path, [], Build.hash []⟩ .synthetic
  let named (name : String) (value : AttributeValue) : Attribute := ⟨name, value, .synthetic⟩
  let splat := named "...attributes" (.text (Build.text ""))
  { Build.element "FooBar" .synthetic with
    attributes :=
      [named "@a" (.text (Build.text "1")),
        named "class" (Build.concat [.text (Build.text "x "), .mustache (bare "y")]),
        splat, named "@b" (.mustache (bare "c")), named "title" (.mustache (bare "t")),
        splat] }

/-- The arguments are passed on in their order, and what stands between them is gathered
behind them. -/
theorem relocates_lowerElement_attributed :
    let classes :=
      Build.sub (Build.path "concat") [Build.string "x ", Build.path "y"] (Build.hash [])
    let invocation := Build.sub (Build.path "hash") []
      (Build.hash [Build.pair "class" classes, Build.pair "title" (Build.path "t")])
    let merged := Build.sub (Build.path "-merge-refs") []
      (Build.hash [Build.pair "invocation" invocation,
        Build.pair "splat" (Build.path "__ANGLE_ATTRS__")])
    Relocates attributed.attributes true
      (Build.hash [Build.pair "a" (Build.string "1"), Build.pair "b" (Build.path "c"),
        Build.pair "__ANGLE_ATTRS__" merged]) := by
  intro classes invocation merged
  obtain ⟨⟨y, call, hy, hcall, hhash⟩, -, -⟩ :=
    relocates_lowerElement attributed (.static "foo-bar" true true) rfl
  cases hy
  cases hcall
  exact (hhash _).mpr rfl

end Component

end CurlyTemplate
