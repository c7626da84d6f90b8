import CurlyTemplate.Text.Segments

/-!
# Patterns for names

A question mark stands for one character, a star for any number of them, brackets for
one of a set or, behind `!`, for one outside of it; two stars between slashes stand for
folders nested to any depth. Every other character stands for itself, a leading dot
not being special. Brackets without an end, more than two stars, and two stars that are
no component of their own are faults.
-/

namespace CurlyTemplate

namespace Files

/-- A part of a set of characters. -/
inductive CharSet where
  | single (c : Char)
  | range (first last : Char)
deriving Repr, DecidableEq

inductive Token where
  | char (c : Char)
  | anyChar
  | anySequence
  /-- Two stars: folders nested to any depth. -/
  | anyDepth
  | oneOf (set : List CharSet)
  | noneOf (set : List CharSet)
deriving Repr, DecidableEq

/-- What can be wrong with a pattern. -/
inductive PatternFault where
  | tooManyStars
  | depthNotAlone
  | invalidRange
deriving Repr, DecidableEq

/-- A fault at a character of a pattern, counted from zero. -/
structure PatternError where
  position : Nat
  fault : PatternFault
deriving Repr, DecidableEq

def PatternFault.message : PatternFault → String
  | .tooManyStars => "wildcards are either regular `*` or recursive `**`"
  | .depthNotAlone => "recursive wildcards must form a single path component"
  | .invalidRange => "invalid range pattern"

def PatternError.message (e : PatternError) : String :=
  s!"Pattern syntax error near position {e.position}: {e.fault.message}"

/-- The set in brackets: ranges such as `a-c` and single characters. -/
def charSets : List Char → List CharSet
  | a :: '-' :: b :: rest => .range a b :: charSets rest
  | a :: rest => .single a :: charSets rest
  | [] => []

/-- What stands before the closing bracket and behind it. -/
def untilBracket (text : List Char) : Option (List Char × List Char) :=
  match text.dropWhile (· ≠ ']') with
  | [] => none
  | _ :: rest => some (text.takeWhile (· ≠ ']'), rest)

/-- The set behind an opening bracket, and what follows its closing bracket. A closing
bracket that comes first belongs to the set. -/
def readSet : List Char → Option (Token × List Char)
  | '!' :: c :: rest =>
      (untilBracket rest).map fun (set, left) => (.noneOf (charSets (c :: set)), left)
  | '!' :: [] => none
  | c :: rest => (untilBracket rest).map fun (set, left) => (.oneOf (charSets (c :: set)), left)
  | [] => none

theorem length_of_untilBracket {text set left : List Char}
    (h : untilBracket text = some (set, left)) : left.length < text.length := by
  simp only [untilBracket] at h
  split at h
  · simp at h
  · next c rest hd =>
      simp only [Option.some.injEq, Prod.mk.injEq] at h
      have := (List.dropWhile_suffix (· ≠ ']') (l := text)).length_le
      rw [hd, h.2, List.length_cons] at this
      omega

theorem length_of_readSet {text left : List Char} {token : Token}
    (h : readSet text = some (token, left)) : left.length < text.length := by
  unfold readSet at h
  split at h
  · next c rest =>
      obtain ⟨⟨set, l⟩, hs, he⟩ := Option.map_eq_some_iff.mp h
      simp only [Prod.mk.injEq] at he
      have := length_of_untilBracket hs
      simp only [← he.2, List.length_cons]
      omega
  · simp at h
  · next c rest _ _ =>
      obtain ⟨⟨set, l⟩, hs, he⟩ := Option.map_eq_some_iff.mp h
      simp only [Prod.mk.injEq] at he
      have := length_of_untilBracket hs
      simp only [← he.2, List.length_cons]
      omega
  · simp at h

/-- Reads a pattern from a character on. `before` is the character before it. -/
def scanTokens (position : Nat) (before : Option Char) (text : List Char) :
    Except PatternError (List Token) :=
  match text with
  | [] => .ok []
  | '*' :: '*' :: '*' :: _ => .error ⟨position + 2, .tooManyStars⟩
  | '*' :: '*' :: rest =>
      if before = none ∨ before = some '/' then
        match rest with
        | [] => .ok [.anyDepth]
        | '/' :: rest => do
            let tokens ← scanTokens (position + 3) (some '/') rest
            pure (.anyDepth :: tokens)
        | _ => .error ⟨position + 2, .depthNotAlone⟩
      else .error ⟨position - 1, .depthNotAlone⟩
  | '*' :: rest => do
      let tokens ← scanTokens (position + 1) (some '*') rest
      pure (.anySequence :: tokens)
  | '?' :: rest => do
      let tokens ← scanTokens (position + 1) (some '?') rest
      pure (.anyChar :: tokens)
  | '[' :: rest =>
      match h : readSet rest with
      | none => .error ⟨position, .invalidRange⟩
      | some (token, left) => do
          have := length_of_readSet h
          let tokens ← scanTokens (position + 1 + (rest.length - left.length)) (some ']') left
          pure (token :: tokens)
  | c :: rest => do
      let tokens ← scanTokens (position + 1) (some c) rest
      pure (.char c :: tokens)
termination_by text.length

/-- A pattern, or a component of one. -/
structure Pattern where
  tokens : List Token
deriving Repr, DecidableEq

namespace Pattern

def ofChars (text : List Char) : Except PatternError Pattern := (scanTokens 0 none text).map .mk

/-- Whether a component stands for nested folders. -/
def isAnyDepth (p : Pattern) : Bool := p.tokens.contains .anyDepth

/-- The name that a pattern stands for, when it stands for one alone. -/
def literal? (p : Pattern) : Option (List Char) :=
  p.tokens.mapM fun token => match token with
    | .char c => some c
    | _ => none

/-- Whether a pattern starts with a dot as such. -/
def startsWithDot (p : Pattern) : Bool := p.tokens.head? == some (.char '.')

end Pattern

/-- Whether a character is in a set. -/
def inSet (set : List CharSet) (c : Char) : Bool :=
  set.any fun part => match part with
    | .single d => c == d
    | .range first last => decide (first ≤ c ∧ c ≤ last)

/-- Whether a token stands for any number of characters. -/
def Token.isSequence : Token → Bool
  | .anySequence | .anyDepth => true
  | _ => false

/-- Whether a token stands for a character. -/
def Token.accepts (token : Token) (c : Char) : Bool :=
  match token with
  | .char d => c == d
  | .anyChar => true
  | .oneOf set => inSet set c
  | .noneOf set => !inSet set c
  | .anySequence | .anyDepth => false

/-- From which places on there is a mark, at the place or behind it. -/
def anyLater : List Bool → List Bool
  | [] => []
  | mark :: rest =>
      let later := anyLater rest
      (mark || later.headD false) :: later

/-- The places before, between and behind the characters of a name, marked where tokens
stand for all that follows. -/
def fits : List Token → List Char → List Bool
  | [], name => List.replicate name.length false ++ [true]
  | token :: tokens, name =>
      let onward := fits tokens name
      if token.isSequence then anyLater onward
      else List.zipWith (fun c mark => token.accepts c && mark) name onward.tail ++ [false]

def matchTokens (tokens : List Token) (name : List Char) : Bool := (fits tokens name).headD false

/-- Whether a pattern stands for a name. -/
def Pattern.accepts (p : Pattern) (name : List Char) : Bool := matchTokens p.tokens name

/-- The components of a pattern: a slash at its end adds none. -/
def splitPattern (text : List Char) : List (List Char) :=
  match (Text.segments '/' text).reverse with
  | [] :: rest => rest.reverse
  | names => names.reverse

end Files

end CurlyTemplate
