import CurlyTemplate.Json.Numeral
import CurlyTemplate.Json.Reading

/-!
# Reading JSON

`Reading.ofText` reads a text as far as it goes. Strings must hold whole characters:
an escaped surrogate needs its partner. Arrays and objects nest at most
`nestingLimit` deep. A value that is only passed over (`skip`) is held to neither
rule, nor to the range of numbers.
-/

namespace CurlyTemplate

namespace Json

/-- Arrays and objects may nest this deep. -/
def nestingLimit : Nat := 127

/-- Space, tab, line feed and carriage return separate the parts of a text. -/
def isSpace (c : Char) : Bool := c == ' ' || c == '\n' || c == '\t' || c == '\r'

/-- What follows the spaces in front of a text. -/
def skipSpace : List Char → List Char
  | [] => []
  | c :: rest => if isSpace c then skipSpace rest else c :: rest

def hexValue? (c : Char) : Option Nat :=
  if c.isDigit then some (c.toNat - '0'.toNat)
  else if 'a' ≤ c ∧ c ≤ 'f' then some (c.toNat - 'a'.toNat + 10)
  else if 'A' ≤ c ∧ c ≤ 'F' then some (c.toNat - 'A'.toNat + 10)
  else none

/-- Four hexadecimal digits. A text of fewer than four bytes ends too early, whatever
its characters are. -/
def readHex4 (text : List Char) : Except Fault (Nat × List Char) :=
  if (String.ofList (text.take 4)).utf8ByteSize < 4 then .error .eofString
  else
    match text with
    | a :: b :: c :: d :: rest =>
        match hexValue? a, hexValue? b, hexValue? c, hexValue? d with
        | some a, some b, some c, some d => .ok (((a * 16 + b) * 16 + c) * 16 + d, rest)
        | _, _, _, _ => .error .invalidEscape
    | _ => .error .invalidEscape

/-- The second half of an escaped surrogate pair: `\uDC00` to `\uDFFF`. -/
def readLowSurrogate (text : List Char) : Except Fault (Nat × List Char) :=
  match text with
  | [] => .error .eofString
  | '\\' :: [] => .error .eofString
  | '\\' :: 'u' :: rest => do
      let (low, rest) ← readHex4 rest
      if 0xDC00 ≤ low ∧ low ≤ 0xDFFF then pure (low, rest) else .error .loneSurrogate
  | _ => .error .unexpectedEndOfHexEscape

/-- What follows the backslash of an escape. One who only passes over a string
(`whole` is false) does not ask whether surrogates come in pairs. -/
def readEscape (whole : Bool) (text : List Char) : Except Fault (Char × List Char) :=
  match text with
  | [] => .error .eofString
  | 'u' :: rest => do
      let (n, rest) ← readHex4 rest
      if 0xD800 ≤ n ∧ n ≤ 0xDFFF then
        if !whole then pure ('\ufffd', rest)
        else if 0xDC00 ≤ n then .error .loneSurrogate
        else do
          let (low, rest) ← readLowSurrogate rest
          pure (Char.ofNat ((n - 0xD800) * 0x400 + (low - 0xDC00) + 0x10000), rest)
      else pure (Char.ofNat n, rest)
  | c :: rest =>
      match c with
      | '"' => .ok ('"', rest)
      | '\\' => .ok ('\\', rest)
      | '/' => .ok ('/', rest)
      | 'b' => .ok ('\x08', rest)
      | 'f' => .ok ('\x0c', rest)
      | 'n' => .ok ('\n', rest)
      | 'r' => .ok ('\r', rest)
      | 't' => .ok ('\t', rest)
      | _ => .error .invalidEscape

theorem length_of_readHex4 {text rest : List Char} {n : Nat}
    (h : readHex4 text = .ok (n, rest)) : rest.length < text.length := by
  unfold readHex4 at h
  split at h
  · simp at h
  · split at h
    · split at h
      · simp only [Except.ok.injEq, Prod.mk.injEq] at h
        simp only [List.length_cons, ← h.2]
        omega
      · simp at h
    · simp at h

theorem length_of_readLowSurrogate {text rest : List Char} {n : Nat}
    (h : readLowSurrogate text = .ok (n, rest)) : rest.length < text.length := by
  unfold readLowSurrogate at h
  split at h
  · simp at h
  · simp at h
  · next tail =>
      cases hr : readHex4 tail with
      | error f => simp [hr, bind, Except.bind] at h
      | ok p =>
          obtain ⟨low, tail'⟩ := p
          have hl := length_of_readHex4 hr
          simp only [hr, bind, Except.bind] at h
          split at h
          · simp only [pure, Except.pure, Except.ok.injEq, Prod.mk.injEq] at h
            simp only [List.length_cons, ← h.2]
            omega
          · simp at h
  · simp at h

theorem length_of_readEscape {whole : Bool} {text rest : List Char} {c : Char}
    (h : readEscape whole text = .ok (c, rest)) : rest.length < text.length := by
  unfold readEscape at h
  split at h
  · simp at h
  · next tail =>
      cases hr : readHex4 tail with
      | error f => simp [hr, bind, Except.bind] at h
      | ok p =>
          obtain ⟨n, tail'⟩ := p
          have hl := length_of_readHex4 hr
          simp only [hr, bind, Except.bind] at h
          split at h
          · split at h
            · simp only [pure, Except.pure, Except.ok.injEq, Prod.mk.injEq] at h
              simp only [List.length_cons, ← h.2]
              omega
            · split at h
              · simp at h
              · cases hs : readLowSurrogate tail' with
                | error f => simp [hs] at h
                | ok q =>
                    have hl' := length_of_readLowSurrogate hs
                    simp only [hs, pure, Except.pure, Except.ok.injEq, Prod.mk.injEq] at h
                    simp only [List.length_cons, ← h.2]
                    omega
          · simp only [pure, Except.pure, Except.ok.injEq, Prod.mk.injEq] at h
            simp only [List.length_cons, ← h.2]
            omega
  · split at h <;> simp only [Except.ok.injEq, Prod.mk.injEq, reduceCtorEq] at h <;>
      simp [← h.2]

/-- Reads a string from behind its opening quote up to its closing quote. The
characters read so far come last first. -/
def readString (whole : Bool) (before : List Char) (text : List Char) :
    Except Fault (List Char × List Char) :=
  match text with
  | [] => .error .eofString
  | '"' :: rest => .ok (before.reverse, rest)
  | '\\' :: rest =>
      match h : readEscape whole rest with
      | .error fault => .error fault
      | .ok (c, rest') =>
          have := length_of_readEscape h
          readString whole (c :: before) rest'
  | c :: rest =>
      if c.toNat < 0x20 then .error .controlCharacter else readString whole (c :: before) rest
termination_by text.length

/-- Reads the letters of a word that is `null`, `true` or `false` from its second
letter on. -/
def readWord : List Char → List Char → Except Fault (List Char)
  | [], text => .ok text
  | _ :: _, [] => .error .eofValue
  | w :: word, c :: rest => if c = w then readWord word rest else .error .expectedIdent

/-- A bracket that is still open. -/
inductive Bracket where
  | list
  | object
deriving Repr, DecidableEq

namespace Bracket

/-- The fault of a text that ends inside the bracket. -/
def eof : Bracket → Fault
  | .list => .eofList
  | .object => .eofObject

/-- The fault of a text that neither goes on nor closes the bracket. -/
def unfinished : Bracket → Fault
  | .list => .expectedListCommaOrEnd
  | .object => .expectedObjectCommaOrEnd

/-- The character that closes the bracket. -/
def close : Bracket → Char
  | .list => ']'
  | .object => '}'

end Bracket

/-- Where one who passes over a value stands. -/
inductive SkipState where
  /-- Before a value. -/
  | value
  /-- Before the key of a member. -/
  | key
  /-- Behind a bracket that was just opened. -/
  | opened
  /-- Behind a value. -/
  | done

/-- Passes over a value. The open brackets come innermost first; the fuel bounds the
number of steps, of which each takes at least one character or enters another state. -/
def skipFrom : Nat → SkipState → List Bracket → List Char → Except Fault (List Char)
  | 0, _, _, _ => .error .eofValue
  | fuel + 1, .value, open', text =>
      match skipSpace text with
      | [] => .error .eofValue
      | '[' :: rest => skipFrom fuel .opened (.list :: open') rest
      | '{' :: rest => skipFrom fuel .opened (.object :: open') rest
      | '"' :: rest => do
          let (_, rest) ← readString false [] rest
          skipFrom fuel .done open' rest
      | 'n' :: rest => do
          let rest ← readWord ['u', 'l', 'l'] rest
          skipFrom fuel .done open' rest
      | 't' :: rest => do
          let rest ← readWord ['r', 'u', 'e'] rest
          skipFrom fuel .done open' rest
      | 'f' :: rest => do
          let rest ← readWord ['a', 'l', 's', 'e'] rest
          skipFrom fuel .done open' rest
      | c :: rest =>
          if c = '-' ∨ c.isDigit then do
            let rest ← Numeral.skip (c :: rest)
            skipFrom fuel .done open' rest
          else .error .expectedValue
  | fuel + 1, .key, open', text =>
      match skipSpace text with
      | [] => .error .eofObject
      | '"' :: rest => do
          let (_, rest) ← readString false [] rest
          match skipSpace rest with
          | [] => .error .eofObject
          | ':' :: rest => skipFrom fuel .value open' rest
          | _ => .error .expectedColon
      | _ => .error .keyMustBeString
  | _ + 1, .opened, [], text => .ok text
  | fuel + 1, .opened, bracket :: outer, text =>
      match skipSpace text with
      | [] => .error bracket.eof
      | c :: rest =>
          if c = bracket.close then skipFrom fuel .done outer rest
          else
            match bracket with
            | .list => skipFrom fuel .value (bracket :: outer) (c :: rest)
            | .object => skipFrom fuel .key (bracket :: outer) (c :: rest)
  | _ + 1, .done, [], text => .ok text
  | fuel + 1, .done, bracket :: outer, text =>
      match skipSpace text with
      | [] => .error bracket.eof
      | c :: rest =>
          if c = bracket.close then skipFrom fuel .done outer rest
          else if c = ',' then
            match bracket with
            | .list => skipFrom fuel .value (bracket :: outer) rest
            | .object => skipFrom fuel .key (bracket :: outer) rest
          else .error bracket.unfinished

/-- Passes over a value: what follows it in the text. The text has no more characters
than `size`. -/
def skip (size : Nat) (text : List Char) : Except Fault (List Char) :=
  skipFrom (2 * size + 2) .value [] text

/-- A value read from a text, and what follows it if its end was found. -/
abbrev ReadResult := Reading × Option (List Char)

/-- Reads the items of an array from the start of one on. The fuel bounds their number. -/
def readItems (item : List Char → ReadResult) :
    Nat → List Char → List Reading × Option Fault × Option (List Char)
  | 0, _ => ([], some .eofList, none)
  | fuel + 1, text =>
      match item text with
      | (r, none) => ([r], none, none)
      | (r, some rest) =>
          match skipSpace rest with
          | [] => ([r], some .eofList, none)
          | ']' :: rest => ([r], none, some rest)
          | ',' :: rest =>
              match skipSpace rest with
              | [] => ([r], some .eofValue, none)
              | ']' :: _ => ([r], some .trailingComma, none)
              | rest =>
                  let (items, fault, left) := readItems item fuel rest
                  (r :: items, fault, left)
          | _ => ([r], some .expectedListCommaOrEnd, none)

/-- Reads the key of a member, with its quotes. -/
def readKey (text : List Char) : Except Fault (String × List Char) :=
  match text with
  | [] => .error .eofValue
  | '"' :: rest => (readString true [] rest).map fun (key, rest) => (String.ofList key, rest)
  | _ => .error .keyMustBeString

def readColon (text : List Char) : Except Fault (List Char) :=
  match skipSpace text with
  | [] => .error .eofObject
  | ':' :: rest => .ok rest
  | _ => .error .expectedColon

/-- Reads the members of an object from the start of a key on. A key without a colon is
a member that has the fault for its value. Behind a value whose end was not found it
goes on where one who passes over the value arrives. The fuel bounds the number of
members, `size` that of the characters. -/
def readMembers (size : Nat) (item : List Char → ReadResult) :
    Nat → List Char → List ReadMember × Option Fault × Option (List Char)
  | 0, _ => ([], some .eofObject, none)
  | fuel + 1, text =>
      match readKey text with
      | .error fault => ([], some fault, none)
      | .ok (key, text) =>
          match readColon text with
          | .error fault => ([⟨key, .broken fault, some fault⟩], none, none)
          | .ok text =>
              let (value, left) := item text
              let passed : Except Fault (List Char) := match left with
                | some rest => .ok rest
                | none => skip size text
              match passed with
              | .error fault => ([⟨key, value, some fault⟩], none, none)
              | .ok rest =>
                  let member : ReadMember := ⟨key, value, none⟩
                  match skipSpace rest with
                  | [] => ([member], some .eofObject, none)
                  | '}' :: rest => ([member], none, some rest)
                  | ',' :: rest =>
                      match skipSpace rest with
                      | '}' :: _ => ([member], some .trailingComma, none)
                      | rest =>
                          let (members, fault, left) := readMembers size item fuel rest
                          (member :: members, fault, left)
                  | _ => ([member], some .expectedObjectCommaOrEnd, none)

/-- A scalar that was read, or the fault instead of it. -/
def scalar : Except Fault (Reading × List Char) → ReadResult
  | .error fault => (.broken fault, none)
  | .ok (r, rest) => (r, some rest)

/-- Reads a value in which arrays and objects may nest `levels` deep. The text has no
more characters than `size`, hence no more items and members. -/
def readValue (size : Nat) : Nat → List Char → ReadResult
  | levels, text =>
      match skipSpace text with
      | [] => (.broken .eofValue, none)
      | '[' :: rest =>
          match levels with
          | 0 => (.array [] (some .recursionLimit), none)
          | levels + 1 =>
              match skipSpace rest with
              | [] => (.array [] (some .eofList), none)
              | ']' :: rest => (.array [] none, some rest)
              | rest =>
                  let (items, fault, left) := readItems (readValue size levels) size rest
                  (.array items fault, left)
      | '{' :: rest =>
          match levels with
          | 0 => (.object [] (some .recursionLimit), none)
          | levels + 1 =>
              match skipSpace rest with
              | [] => (.object [] (some .eofObject), none)
              | '}' :: rest => (.object [] none, some rest)
              | rest =>
                  let (members, fault, left) := readMembers size (readValue size levels) size rest
                  (.object members fault, left)
      | '"' :: rest =>
          scalar ((readString true [] rest).map fun (s, rest) => (.string (String.ofList s), rest))
      | 'n' :: rest => scalar ((readWord ['u', 'l', 'l'] rest).map fun rest => (.null, rest))
      | 't' :: rest => scalar ((readWord ['r', 'u', 'e'] rest).map fun rest => (.bool true, rest))
      | 'f' :: rest =>
          scalar ((readWord ['a', 'l', 's', 'e'] rest).map fun rest => (.bool false, rest))
      | c :: rest =>
          if c = '-' ∨ c.isDigit then
            scalar ((Numeral.read (c :: rest)).map fun (n, rest) => (.number n, rest))
          else (.broken .expectedValue, none)

/-- A text read as one value, and the fault behind it if more than spaces follow. -/
def Reading.ofText (levels : Nat) (text : String) : Reading × Option Fault :=
  match readValue text.length levels text.toList with
  | (r, some rest) => (r, if (skipSpace rest).isEmpty then none else some .trailingCharacters)
  | (r, none) => (r, r.firstFault)

/-- The value of a text, or its first fault. -/
def Value.ofText (levels : Nat) (text : String) : Except Fault Value :=
  let (r, behind) := Reading.ofText levels text
  match r.firstFault.or behind with
  | some fault => .error fault
  | none => .ok r.toValue

end Json

end CurlyTemplate
