import CurlyTemplate.Proofs.Lowering.Arguments
import Mathlib.Data.List.Nodup

/-!
# The keys of a call

Attributes with different names become pairs with different keys, in the call that stands
for an element as well as in the two hashes inside of it: what loses its `@` and what does
not goes into different hashes, and so do the keys that are no names of attributes. There
is one exception (`keys_lowerElement`). The argument that gathers attributes stands in one
hash with the arguments of the author, and nothing keeps the author from using its key
(`not_distinctKeys_reserved`).
-/

namespace CurlyTemplate

/-- The keys of a hash, in order. -/
def Hash.keys (hash : Hash) : List String := hash.pairs.map HashPair.key

namespace Component

/-- A pair that gathers attributes, with no key twice in either of its hashes. -/
inductive GathersApart : HashPair → Prop
  | intro {merge : Hash} (hmerge : merge.keys.Nodup)
      (hinvocation : ∀ entry ∈ merge.pairs, entry.key = "invocation" →
        ∃ own, entry.value = Build.sub (Build.path "hash") [] own ∧ own.keys.Nodup) :
      GathersApart
        (Build.pair "__ANGLE_ATTRS__" (Build.sub (Build.path "-merge-refs") [] merge))

variable {attributes plain : List Attribute} {lead gathered pairs : List HashPair} {splat : Bool}
  {key : String}

theorem at_append_injective : Function.Injective ("@" ++ · : String → String) := by
  intro key key' h
  have hlist := congrArg String.toList h
  rw [String.toList_append, String.toList_append] at hlist
  exact String.toList_inj.mp (List.append_cancel_left hlist)

theorem map_eq_map_of_forall₂ {α β γ : Type} {f : α → γ} {g : β → γ} {as : List α}
    {bs : List β} (h : List.Forall₂ (fun a b => f a = g b) as bs) : as.map f = bs.map g := by
  rw [← List.forall₂_eq_eq_eq, List.forall₂_map_left_iff, List.forall₂_map_right_iff]
  exact h

/-- With the `@` in front the keys are the names again. -/
theorem map_name_eq_of_lead
    (h : List.Forall₂ (fun a pair => a.name = "@" ++ pair.key ∧ pair.Carries a) attributes lead) :
    attributes.map Attribute.name = (lead.map HashPair.key).map ("@" ++ ·) := by
  rw [List.map_map]
  exact map_eq_map_of_forall₂ (h.imp fun _ _ hpair => hpair.1)

theorem nodup_keys_of_lead (hnames : (attributes.map Attribute.name).Nodup)
    (h : List.Forall₂ (fun a pair => a.name = "@" ++ pair.key ∧ pair.Carries a) attributes lead) :
    (lead.map HashPair.key).Nodup := by
  rw [map_name_eq_of_lead h] at hnames
  exact hnames.of_map

theorem mem_keys_of_lead_iff
    (h : List.Forall₂ (fun a pair => a.name = "@" ++ pair.key ∧ pair.Carries a) attributes lead) :
    key ∈ lead.map HashPair.key ↔ "@" ++ key ∈ attributes.map Attribute.name := by
  rw [map_name_eq_of_lead h, List.mem_map_of_injective at_append_injective]

theorem nodup_names_filter (hnames : (attributes.map Attribute.name).Nodup)
    (p : Attribute → Bool) : ((attributes.filter p).map Attribute.name).Nodup :=
  hnames.sublist (List.filter_sublist.map _)

theorem keys_of_invocationEntry (h : InvocationEntry plain pairs) :
    pairs.map HashPair.key = if plain.isEmpty then [] else ["invocation"] := by
  cases h with
  | none hplain => rw [hplain]; rfl
  | some hplain hpairs => rw [if_neg (mt List.isEmpty_iff.mp hplain)]; rfl

theorem keys_of_splatEntry (h : SplatEntry splat pairs) :
    pairs.map HashPair.key = if splat then ["splat"] else [] := by
  cases h <;> rfl

theorem nodup_keys_merge {invocation forwarded : List HashPair}
    (hinvocation : InvocationEntry plain invocation) (hforwarded : SplatEntry splat forwarded) :
    (Build.hash (invocation ++ forwarded)).keys.Nodup := by
  have hkeys : (Build.hash (invocation ++ forwarded)).keys =
      invocation.map HashPair.key ++ forwarded.map HashPair.key := List.map_append
  rw [hkeys, keys_of_invocationEntry hinvocation, keys_of_splatEntry hforwarded]
  cases plain.isEmpty <;> cases splat <;> decide

theorem exists_own_of_invocationEntry (hnames : (plain.map Attribute.name).Nodup)
    (h : InvocationEntry plain pairs) {entry : HashPair} (hentry : entry ∈ pairs) :
    ∃ own, entry.value = Build.sub (Build.path "hash") [] own ∧ own.keys.Nodup := by
  cases h with
  | none => cases hentry
  | some _ hpairs =>
      cases List.mem_singleton.mp hentry
      have hkeys := map_eq_map_of_forall₂ (hpairs.imp fun _ _ hpair => hpair.1.symm)
      rw [hkeys] at hnames
      exact ⟨_, rfl, hnames⟩

theorem ne_invocation_of_splatEntry (h : SplatEntry splat pairs) {entry : HashPair}
    (hentry : entry ∈ pairs) : entry.key ≠ "invocation" := by
  cases h with
  | none => cases hentry
  | some =>
      cases List.mem_singleton.mp hentry
      decide

/-- The gathering argument is there when there is something to gather, and keeps the keys
inside of it apart. -/
theorem gathersApart_of_gatheredPair (hnames : (plain.map Attribute.name).Nodup)
    (h : GatheredPair plain splat gathered) :
    gathered = [] ∧ plain = [] ∧ splat = false ∨
      (plain ≠ [] ∨ splat = true) ∧ ∃ pair, gathered = [pair] ∧ GathersApart pair := by
  cases h with
  | none hplain hsplat => exact .inl ⟨rfl, hplain, hsplat⟩
  | some hsome hinvocation hforwarded =>
      refine .inr ⟨hsome, _, rfl, .intro (nodup_keys_merge hinvocation hforwarded) ?_⟩
      intro entry hentry hkey
      rcases List.mem_append.mp hentry with hentry | hentry
      · exact exists_own_of_invocationEntry hnames hinvocation hentry
      · exact absurd hkey (ne_invocation_of_splatEntry hforwarded hentry)

theorem isArgument_eq_false_iff {a : Attribute} :
    a.isArgument = false ↔ a.isPlain = true ∨ a.name = "...attributes" := by
  rw [Attribute.isPlain, Bool.and_eq_true, Bool.not_eq_true', bne_iff_ne]
  constructor
  · intro h
    by_cases hname : a.name = "...attributes"
    · exact .inr hname
    · exact .inl ⟨h, hname⟩
  · rintro (⟨h, -⟩ | hname)
    · exact h
    · rw [Attribute.isArgument, hname]
      decide

/-- There is something to gather just when not every attribute is an argument. -/
theorem gathers_iff {e : Element} :
    (e.attributes.filter Attribute.isPlain ≠ [] ∨ hasSplat e = true) ↔
      ∃ a ∈ e.attributes, a.isArgument = false := by
  simp only [isArgument_eq_false_iff, and_or_left, exists_or, hasSplat_iff, ne_eq,
    List.filter_eq_nil_iff, not_forall, not_not, exists_prop]

theorem exists_of_relocates {hash : Hash} (h : Relocates attributes splat hash) :
    ∃ lead gathered,
      List.Forall₂ (fun a pair => a.name = "@" ++ pair.key ∧ pair.Carries a)
        (attributes.filter Attribute.isArgument) lead ∧
      GatheredPair (attributes.filter Attribute.isPlain) splat gathered ∧
      hash = Build.hash (lead ++ gathered) := by
  cases h with
  | intro hlead hgathered => exact ⟨_, _, hlead, hgathered, rfl⟩

/-- The key of the gathering argument is that of an argument of the author when an attribute
has it behind its `@`. -/
theorem reserved_mem_keys_iff
    (h : List.Forall₂ (fun a pair => a.name = "@" ++ pair.key ∧ pair.Carries a)
      (attributes.filter Attribute.isArgument) lead) :
    "__ANGLE_ATTRS__" ∈ lead.map HashPair.key ↔
      ∃ a ∈ attributes, a.name = "@__ANGLE_ATTRS__" := by
  rw [mem_keys_of_lead_iff h, List.mem_map]
  constructor
  · rintro ⟨a, ha, hname⟩
    exact ⟨a, List.mem_of_mem_filter ha, hname⟩
  · rintro ⟨a, ha, hname⟩
    have hargument : a.isArgument = true := by
      rw [Attribute.isArgument, hname]
      decide
    exact ⟨a, List.mem_filter.mpr ⟨ha, hargument⟩, hname⟩

theorem nodup_keys_append_iff {pair : HashPair} (hlead : (lead.map HashPair.key).Nodup)
    (h : GathersApart pair) :
    (Build.hash (lead ++ [pair])).keys.Nodup ↔
      "__ANGLE_ATTRS__" ∉ lead.map HashPair.key := by
  have hkeys : (Build.hash (lead ++ [pair])).keys = lead.map HashPair.key ++ [pair.key] :=
    List.map_append
  cases h with
  | intro =>
      rw [hkeys, List.nodup_append_comm, List.singleton_append, List.nodup_cons,
        and_iff_left hlead]
      rfl

/-- The call that replaces a component has the arguments of the author in front, with
different keys, and behind them one pair for all attributes that are no arguments, if there
are any. No key is there twice in the hashes of that pair. Its own key is that of an argument
just when the author has written `@__ANGLE_ATTRS__`. -/
theorem keys_lowerElement {source : Source} {scope : Scope} {e : Element}
    (hnames : (e.attributes.map Attribute.name).Nodup)
    (h : isComponent source scope e = true) :
    ∃ y call lead gathered, (lowerElement e (classify source scope e)).1 = .replace y ∧
      y.call? = some call ∧ call.hash = Build.hash (lead ++ gathered) ∧
      (e.attributes.filter Attribute.isArgument).map Attribute.name =
        (lead.map HashPair.key).map ("@" ++ ·) ∧
      (lead.map HashPair.key).Nodup ∧
      (gathered = [] ∧ (∀ a ∈ e.attributes, a.isArgument = true) ∨
        (∃ a ∈ e.attributes, a.isArgument = false) ∧
          ∃ pair, gathered = [pair] ∧ GathersApart pair) ∧
      (call.hash.keys.Nodup ↔
        (∀ a ∈ e.attributes, a.isArgument = true) ∨
          ∀ a ∈ e.attributes, a.name ≠ "@__ANGLE_ATTRS__") := by
  obtain ⟨closing, hclosing⟩ := Option.isSome_iff_exists.mp h
  obtain ⟨y, call, hy, hcall, hhash⟩ := lowerElement_of_closing (e := e) hclosing
  have hsplat : (classify source scope e).hasSplat = hasSplat e := hasSplat_classifyTag
  rw [hsplat] at hhash
  obtain ⟨lead, gathered, hlead, hgathered, hpairs⟩ :=
    exists_of_relocates (relocates_iff.mpr hhash.symm)
  have hkeys := nodup_keys_of_lead (nodup_names_filter hnames _) hlead
  have hreserved := reserved_mem_keys_iff hlead
  refine ⟨y, call, lead, gathered, hy, hcall, hpairs, map_name_eq_of_lead hlead, hkeys, ?_⟩
  rcases gathersApart_of_gatheredPair (nodup_names_filter hnames _) hgathered with
    ⟨rfl, hnone⟩ | ⟨hsome, pair, rfl, hapart⟩
  · have hall : ∀ a ∈ e.attributes, a.isArgument = true := by
      intro a ha
      by_contra hargument
      have hsome := gathers_iff.mpr ⟨a, ha, Bool.eq_false_iff.mpr hargument⟩
      exact hsome.elim (absurd hnone.1) (Bool.eq_false_iff.mp hnone.2)
    rw [hpairs, List.append_nil]
    exact ⟨.inl ⟨rfl, hall⟩, iff_of_true hkeys (.inl hall)⟩
  · have hother := gathers_iff.mp hsome
    have hnotall : ¬ ∀ a ∈ e.attributes, a.isArgument = true := by
      obtain ⟨a, ha, hargument⟩ := hother
      intro hall
      rw [hall a ha] at hargument
      cases hargument
    rw [hpairs, nodup_keys_append_iff hkeys hapart, hreserved, or_iff_right hnotall]
    refine ⟨.inr ⟨hother, pair, rfl, hapart⟩, ?_⟩
    simp only [not_exists, not_and, ne_eq]

/-- `<FooBar @class="1" class="2" ...attributes />` -/
def namedTwice : Element :=
  let named (name value : String) : Attribute :=
    Build.attributeNode name (.text (Build.text value)) .synthetic
  { Build.element "FooBar" .synthetic with
    attributes := [named "@class" "1", named "class" "2", named "...attributes" ""] }

/-- An argument and an attribute of the same name do not meet in one hash. -/
theorem keys_lowerElement_namedTwice :
    (namedTwice.attributes.map Attribute.name).Nodup ∧
      isComponent .unavailable .empty namedTwice = true ∧
      ∃ y call, (lowerElement namedTwice (classify .unavailable .empty namedTwice)).1 =
          .replace y ∧ y.call? = some call ∧ call.hash.keys = ["class", "__ANGLE_ATTRS__"] ∧
        call.hash.keys.Nodup := by
  have hnames : (namedTwice.attributes.map Attribute.name).Nodup := by decide
  have hcomponent : isComponent .unavailable .empty namedTwice = true := by decide
  obtain ⟨y, call, lead, gathered, hy, hcall, -, -, -, -, hnodup⟩ :=
    keys_lowerElement hnames hcomponent
  have hkeys : call.hash.keys = ["class", "__ANGLE_ATTRS__"] := by
    cases hy
    cases hcall
    rfl
  exact ⟨hnames, hcomponent, y, call, hy, hcall, hkeys, hnodup.mpr (.inr (by decide))⟩

/-- Attributes with different names become pairs with different keys. -/
def DistinctKeys (source : Source) (scope : Scope) (e : Element) : Prop :=
  (e.attributes.map Attribute.name).Nodup → isComponent source scope e = true →
    ∀ y call, (lowerElement e (classify source scope e)).1 = .replace y →
      y.call? = some call → call.hash.keys.Nodup

/-- `<FooBar @__ANGLE_ATTRS__="1" class="2" />` -/
def reserved : Element :=
  let named (name value : String) : Attribute :=
    Build.attributeNode name (.text (Build.text value)) .synthetic
  { Build.element "FooBar" .synthetic with
    attributes := [named "@__ANGLE_ATTRS__" "1", named "class" "2"] }

theorem not_distinctKeys_reserved : ¬ DistinctKeys .unavailable .empty reserved := by
  intro h
  have hnodup := h (by decide) (by decide) _ _ rfl rfl
  revert hnodup
  decide

end Component

end CurlyTemplate
