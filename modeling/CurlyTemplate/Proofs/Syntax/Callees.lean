import CurlyTemplate.Syntax.Build
import CurlyTemplate.Text.Capital
import CurlyTemplate.Text.Dasherize

/-!
# The paths that are called

A call looks up the path in front of it. The callees of an expression are the paths in
front of the calls inside it; a path that is only passed on is none of them. The name
that decides where a path is looked up is the first of its parts, unless it starts at
`this` or at a named argument.
-/

namespace CurlyTemplate

namespace Text

theorem head?_segments (sep : Char) (s : List Char) :
    (segments sep s).head? = some (headSegment sep s) := by
  induction s with
  | nil => rfl
  | cons c rest ih =>
      by_cases hc : c = sep
      · rw [hc, segments_cons_self]
        simp [headSegment]
      · obtain ⟨first, others, hs⟩ := List.exists_cons_of_ne_nil (segments_ne_nil sep rest)
        rw [hs] at ih
        rw [segments_cons_of_ne hc hs]
        simpa [headSegment, hc] using ih

theorem toLower_ne_dot {c : Char} (h : c.isUpper = true) : c.toLower ≠ '.' := by
  have hrange := toNat_of_isUpper h
  have hlower : c.toLower = ⟨c.val + ('a'.val - 'A'.val), _⟩ := dif_pos (of_decide_eq_true h)
  intro hc
  rw [hc] at hlower
  have hval : 46 = (c.toNat + 32) % 4294967296 := congrArg Char.toNat hlower
  omega

/-- Capitals and dashes are never dots, so the dashed spelling of a path is that of each
of its parts. -/
theorem headSegment_dashed (afterLetter : Bool) (s : List Char) :
    headSegment '.' (dashed afterLetter s) = dashed afterLetter (headSegment '.' s) := by
  induction s generalizing afterLetter with
  | nil => rfl
  | cons c rest ih =>
      by_cases hc : c = '.'
      · subst hc
        rfl
      · have hhead : headSegment '.' (c :: rest) = c :: headSegment '.' rest := by
          simp [headSegment, hc]
        rw [hhead, dashed_cons, dashed_cons]
        by_cases hupper : c.isUpper = true
        · have hlower := toLower_ne_dot hupper
          cases afterLetter <;> simpa [headSegment, hupper, hlower] using ih true
        · simpa [headSegment, hupper, hc] using ih c.isAlpha

end Text

/-- The name that a path starts with, when that is a name to look up. -/
def Path.localName? (p : Path) : Option String :=
  if p.this || p.data then none else p.parts.head?

theorem Path.localName?_ofChars {written : List Char} {loc : Span} {name : String}
    (h : (Path.ofChars written loc).localName? = some name) :
    name = String.ofList (Text.headSegment '.' written) := by
  simp only [Path.ofChars] at h
  split at h
  · simp [Path.localName?] at h
  · split at h
    · simp [Path.localName?] at h
    · have hname : ((Text.segments '.' written).map String.ofList).head? = some name := by
        simpa [Path.localName?] using h
      rw [List.head?_map, Text.head?_segments, Option.map_some] at hname
      exact (Option.some.inj hname).symm

mutual

/-- The paths in front of the calls inside an expression. -/
def Expression.callees : Expression → List Path
  | .sub call _ => call.callees
  | _ => []

/-- The path in front of a call, and those in front of the calls inside it. -/
def Call.callees : Call → List Path
  | ⟨path, params, hash⟩ =>
      path.path?.toList ++ path.callees ++ calleesOfParams params ++ hash.callees

def calleesOfParams : List Expression → List Path
  | [] => []
  | e :: rest => e.callees ++ calleesOfParams rest

def Hash.callees : Hash → List Path
  | ⟨pairs, _⟩ => calleesOfPairs pairs

def calleesOfPairs : List HashPair → List Path
  | [] => []
  | pair :: rest => pair.callees ++ calleesOfPairs rest

def HashPair.callees : HashPair → List Path
  | ⟨_, value, _⟩ => value.callees

end

variable {p : Path}

theorem mem_calleesOfParams {params : List Expression} :
    p ∈ calleesOfParams params ↔ ∃ e ∈ params, p ∈ e.callees := by
  induction params with
  | nil => simp [calleesOfParams]
  | cons e rest ih => simp [calleesOfParams, ih]

theorem mem_calleesOfPairs {pairs : List HashPair} :
    p ∈ calleesOfPairs pairs ↔ ∃ pair ∈ pairs, p ∈ pair.value.callees := by
  induction pairs with
  | nil => simp [calleesOfPairs]
  | cons pair rest ih =>
      have hpair : pair.callees = pair.value.callees := by cases pair; rfl
      simp [calleesOfPairs, hpair, ih]

theorem mem_callees_hash {pairs : List HashPair} :
    p ∈ (Build.hash pairs).callees ↔ ∃ pair ∈ pairs, p ∈ pair.value.callees :=
  mem_calleesOfPairs

theorem mem_callees_path {written : String} {params : List Expression} {hash : Hash} :
    p ∈ Call.callees ⟨Build.path written, params, hash⟩ ↔
      p = Path.ofString written .synthetic ∨ (∃ e ∈ params, p ∈ e.callees) ∨
        p ∈ hash.callees := by
  simp [Call.callees, Build.path, Expression.path?, Expression.callees, mem_calleesOfParams]

theorem mem_callees_sub {written : String} {params : List Expression} {hash : Hash} :
    p ∈ (Build.sub (Build.path written) params hash).callees ↔
      p = Path.ofString written .synthetic ∨ (∃ e ∈ params, p ∈ e.callees) ∨
        p ∈ hash.callees :=
  mem_callees_path

end CurlyTemplate
