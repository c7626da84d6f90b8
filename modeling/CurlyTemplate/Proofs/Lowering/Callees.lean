import CurlyTemplate.Proofs.Lowering.Recursion
import CurlyTemplate.Proofs.Syntax.Callees
import Mathlib.Logic.Basic

/-!
# The callees of a lowered element

The call that stands for an element has the name of a component in front or a helper, and
needs helpers for the attributes. Every other path that is called in it was called in the
value of an attribute. `mem_callees_of_form` tells the two kinds apart.
-/

namespace CurlyTemplate

def ConcatPart.callees : ConcatPart → List Path
  | .text _ => []
  | .mustache m => (Component.mustacheExpression m).callees

/-- The paths that the value of an attribute calls by itself. -/
def AttributeValue.callees : AttributeValue → List Path
  | .text _ => []
  | .mustache m => (Component.mustacheExpression m).callees
  | .concat parts _ => parts.flatMap ConcatPart.callees

def AttributeValue.isConcat : AttributeValue → Bool
  | .concat _ _ => true
  | _ => false

namespace Component

/-- The attributes that an element has of its own. -/
def ownAttributes (attributes : List Attribute) : List Attribute :=
  attributes.filter (·.name != splatName)

/-- Those of its own attributes that are not passed one by one. -/
def plainAttributes (attributes : List Attribute) : List Attribute :=
  (ownAttributes attributes).filter fun a => (argumentName? a).isNone

/-- The name in front of the call that stands for an element. -/
def Invocation.callee? : Invocation → Option String
  | .markup _ => none
  | .static name _ _ => some name
  | .dynamic _ _ _ => some componentHelper

/-- Whether an element forwards attributes, as its invocation tells. -/
def Invocation.hasSplat : Invocation → Bool
  | .markup hasSplat | .static _ _ hasSplat | .dynamic _ _ hasSplat => hasSplat

/-- The helpers that the attributes of a call need. -/
def attributeHelpers (attributes : List Attribute) (hasSplat : Bool) : List String :=
  (if (ownAttributes attributes).any (·.value.isConcat) then [concatHelper] else []) ++
    (if hasSplat || !(plainAttributes attributes).isEmpty then [mergeHelper] else []) ++
    (if (plainAttributes attributes).isEmpty then [] else [hashHelper])

/-- The paths that stand in front of calls only since an element was lowered. -/
def introduced (source : Source) (scope : Scope) (e : Element) : List Path :=
  match (classify source scope e).callee? with
  | none => []
  | some name =>
      (name :: attributeHelpers e.attributes (hasSplat e)).map (Path.ofString · .synthetic)

variable {p : Path}

theorem callees_partExpression (part : ConcatPart) :
    (partExpression part).callees = part.callees := by
  cases part <;> rfl

theorem mem_callees_valueExpression {value : AttributeValue} :
    p ∈ (valueExpression value).callees ↔
      value.isConcat = true ∧ p = Path.ofString concatHelper .synthetic ∨ p ∈ value.callees := by
  cases value with
  | text t =>
      simp [valueExpression, Build.string, Expression.callees, AttributeValue.callees,
        AttributeValue.isConcat]
  | mustache m => simp [valueExpression, AttributeValue.callees, AttributeValue.isConcat]
  | concat parts loc =>
      rw [valueExpression, mem_callees_sub, mem_callees_hash]
      simp [AttributeValue.isConcat, AttributeValue.callees, callees_partExpression]

theorem mem_callees_argumentPairs {attributes : List Attribute} :
    (∃ pair ∈ argumentPairs attributes, p ∈ pair.value.callees) ↔
      ∃ a ∈ attributes, (argumentName? a).isSome = true ∧
        p ∈ (valueExpression a.value).callees := by
  simp only [argumentPairs, List.mem_filterMap, Option.map_eq_some_iff, Option.isSome_iff_exists]
  constructor
  · rintro ⟨_, ⟨a, ha, name, hname, rfl⟩, hp⟩
    exact ⟨a, ha, ⟨name, hname⟩, hp⟩
  · rintro ⟨a, ha, ⟨name, hname⟩, hp⟩
    exact ⟨_, ⟨a, ha, name, hname, rfl⟩, hp⟩

theorem mem_callees_mergedAttributes {attributes : List Attribute} {hasSplat : Bool} :
    p ∈ (mergedAttributes attributes hasSplat).callees ↔
      p = Path.ofString mergeHelper .synthetic ∨
        attributes ≠ [] ∧ p = Path.ofString hashHelper .synthetic ∨
        ∃ a ∈ attributes, p ∈ (valueExpression a.value).callees := by
  have hsplat : Expression.callees (Build.path attributesName) = [] := rfl
  have hinvocation : p ∈ (Build.sub (Build.path hashHelper) []
      (Build.hash (attributes.map fun a => attributePair a.name a))).callees ↔
        p = Path.ofString hashHelper .synthetic ∨
          ∃ a ∈ attributes, p ∈ (valueExpression a.value).callees := by
    rw [mem_callees_sub, mem_callees_hash]
    simp [attributePair]
  rw [mergedAttributes, mem_callees_sub, mem_callees_hash]
  by_cases hempty : attributes = []
  · cases hasSplat <;> simp [Build.pair, hsplat, hempty]
  · cases hasSplat <;> simp [Build.pair, hsplat, hempty, hinvocation]

theorem exists_mem_ownAttributes {attributes : List Attribute} {P : Attribute → Prop} :
    (∃ a ∈ ownAttributes attributes, P a) ↔
      (∃ a ∈ ownAttributes attributes, (argumentName? a).isSome = true ∧ P a) ∨
        ∃ a ∈ plainAttributes attributes, P a := by
  simp only [plainAttributes, List.mem_filter]
  constructor
  · rintro ⟨a, ha, hP⟩
    cases hname : argumentName? a with
    | none => exact .inr ⟨a, ⟨ha, by rw [hname]; rfl⟩, hP⟩
    | some name => exact .inl ⟨a, ha, by rw [hname]; rfl, hP⟩
  · rintro (⟨a, ha, -, hP⟩ | ⟨a, ⟨ha, -⟩, hP⟩)
    · exact ⟨a, ha, hP⟩
    · exact ⟨a, ha, hP⟩

theorem mem_map_attributeHelpers {attributes : List Attribute} {hasSplat : Bool} :
    p ∈ (attributeHelpers attributes hasSplat).map (Path.ofString · .synthetic) ↔
      (∃ a ∈ ownAttributes attributes, a.value.isConcat = true) ∧
          p = Path.ofString concatHelper .synthetic ∨
        (hasSplat = true ∨ plainAttributes attributes ≠ []) ∧
          p = Path.ofString mergeHelper .synthetic ∨
        plainAttributes attributes ≠ [] ∧ p = Path.ofString hashHelper .synthetic := by
  rw [attributeHelpers, List.map_append, List.map_append, List.mem_append, List.mem_append,
    or_assoc]
  refine or_congr ?_ (or_congr ?_ ?_)
  · split <;> simp_all
  · split <;> simp_all
  · split <;> simp_all

theorem mem_callees_gathered {attributes : List Attribute} {hasSplat : Bool} :
    (∃ pair ∈ (if hasSplat || !attributes.isEmpty then
      [Build.pair attributesName (mergedAttributes attributes hasSplat)] else []),
        p ∈ pair.value.callees) ↔
      (hasSplat = true ∨ attributes ≠ []) ∧ p ∈ (mergedAttributes attributes hasSplat).callees := by
  split <;> simp_all [Build.pair]

theorem mem_callees_invocationHash_iff {attributes : List Attribute} {hasSplat : Bool} :
    p ∈ (invocationHash attributes hasSplat).callees ↔
      (∃ a ∈ ownAttributes attributes, p ∈ (valueExpression a.value).callees) ∨
        (hasSplat = true ∨ plainAttributes attributes ≠ []) ∧
          p = Path.ofString mergeHelper .synthetic ∨
        plainAttributes attributes ≠ [] ∧ p = Path.ofString hashHelper .synthetic := by
  have hpairs : p ∈ (invocationHash attributes hasSplat).callees ↔
      (∃ a ∈ ownAttributes attributes, (argumentName? a).isSome = true ∧
          p ∈ (valueExpression a.value).callees) ∨
        (hasSplat = true ∨ plainAttributes attributes ≠ []) ∧
          p ∈ (mergedAttributes (plainAttributes attributes) hasSplat).callees := by
    rw [← mem_callees_argumentPairs, ← mem_callees_gathered, ← exists_or]
    simp only [← or_and_right, ← List.mem_append]
    exact mem_callees_hash
  rw [hpairs, exists_mem_ownAttributes (P := fun a => p ∈ (valueExpression a.value).callees),
    or_assoc, mem_callees_mergedAttributes]
  refine or_congr_right ?_
  constructor
  · rintro ⟨hgathered, hmerge | hhash | hvalue⟩
    · exact .inr (.inl ⟨hgathered, hmerge⟩)
    · exact .inr (.inr hhash)
    · exact .inl hvalue
  · rintro (⟨a, ha, hvalue⟩ | ⟨hgathered, hmerge⟩ | hhash)
    · exact ⟨.inr (List.ne_nil_of_mem ha), .inr (.inr ⟨a, ha, hvalue⟩)⟩
    · exact ⟨hgathered, .inl hmerge⟩
    · exact ⟨.inr hhash.1, .inr (.inl hhash)⟩

theorem mem_callees_invocationHash {attributes : List Attribute} {hasSplat : Bool} :
    p ∈ (invocationHash attributes hasSplat).callees ↔
      p ∈ (attributeHelpers attributes hasSplat).map (Path.ofString · .synthetic) ∨
        ∃ a ∈ ownAttributes attributes, p ∈ a.value.callees := by
  have hvalues : (∃ a ∈ ownAttributes attributes, p ∈ (valueExpression a.value).callees) ↔
      (∃ a ∈ ownAttributes attributes, p ∈ a.value.callees) ∨
        (∃ a ∈ ownAttributes attributes, a.value.isConcat = true) ∧
          p = Path.ofString concatHelper .synthetic := by
    rw [or_comm]
    simp only [mem_callees_valueExpression, and_or_left, exists_or, ← and_assoc, exists_and_right]
  rw [mem_callees_invocationHash_iff, mem_map_attributeHelpers, hvalues, or_assoc, or_comm]

theorem hasSplat_classifyTag {scope : Scope} {tag : List Char} {closing splat : Bool} :
    (classifyTag scope tag closing splat).hasSplat = splat := by
  simp only [classifyTag]
  repeat' split
  all_goals rfl

theorem callees_calleeExpression (callee : Callee) : callee.expression.callees = [] := by
  cases callee <;> rfl

theorem Form.eq_of_ofCall {closing : Bool} {c call : Call}
    (h : ofCall closing c = .inline call ∨ ofCall closing c = .around call) : c = call := by
  cases closing <;> simpa [ofCall] using h

theorem call_of_form {source : Source} {scope : Scope} {e : Element} {call : Call}
    (h : form source scope e = .inline call ∨ form source scope e = .around call) :
    ∃ name params, (classify source scope e).callee? = some name ∧
      (∀ q ∈ params, q.callees = []) ∧
      call = ⟨Build.path name, params, invocationHash e.attributes (hasSplat e)⟩ := by
  have hsplat : (classify source scope e).hasSplat = hasSplat e := hasSplat_classifyTag
  rw [← hsplat]
  simp only [form] at h
  cases hclassify : classify source scope e with
  | markup splat => cases splat <;> simp [hclassify] at h
  | static name closing splat =>
      rw [hclassify] at h
      refine ⟨name, [], rfl, ?_, (Form.eq_of_ofCall h).symm⟩
      intro q hq
      cases hq
  | dynamic callee closing splat =>
      rw [hclassify] at h
      refine ⟨componentHelper, [callee.expression], rfl, ?_, (Form.eq_of_ofCall h).symm⟩
      intro q hq
      rw [List.mem_singleton.mp hq]
      exact callees_calleeExpression callee

/-- The call that stands for an element calls what lowering introduces and what the values
of its own attributes call. -/
theorem mem_callees_of_form {source : Source} {scope : Scope} {e : Element} {call : Call}
    (h : form source scope e = .inline call ∨ form source scope e = .around call) :
    p ∈ call.callees ↔
      p ∈ introduced source scope e ∨ ∃ a ∈ ownAttributes e.attributes, p ∈ a.value.callees := by
  obtain ⟨name, params, hname, hparams, rfl⟩ := call_of_form h
  have hnone : ¬ ∃ q ∈ params, p ∈ q.callees := by
    rintro ⟨q, hq, hp⟩
    rw [hparams q hq] at hp
    cases hp
  rw [mem_callees_path, or_iff_right hnone, mem_callees_invocationHash, introduced, hname]
  simp only [List.map_cons, List.mem_cons, or_assoc]

end Component

end CurlyTemplate
