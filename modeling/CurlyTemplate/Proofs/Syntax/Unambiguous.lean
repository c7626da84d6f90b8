import CurlyTemplate.Proofs.Syntax.Encoding
import CurlyTemplate.Proofs.Syntax.Placeless
import CurlyTemplate.Syntax.Printer

/-!
# The text of an expression tells the expression

Printing drops the places, and of a path all but its written form (`asWritten`). Without
number literals and with plain names nothing else is lost: the text of an expression
determines the expression and where its text ends (`Plain.expression_append_inj`).
-/

namespace CurlyTemplate

/-! ### What the text tells -/

def Path.asWritten (p : Path) : Path := ⟨p.written, false, false, [], .synthetic⟩

/-- An expression without its places, each path reduced to its written form. -/
def Expression.asWritten (e : Expression) : Expression := e.strip Path.asWritten

def HashPair.asWritten (p : HashPair) : HashPair := p.strip Path.asWritten

theorem HashPair.asWritten_eq (p : HashPair) :
    p.asWritten = ⟨p.key, p.value.asWritten, .synthetic⟩ :=
  p.strip_eq _

theorem Expression.asWritten_sub (c : Call) (loc : Span) :
    (Expression.sub c loc).asWritten = .sub ⟨c.path.asWritten, c.params.map (·.asWritten),
      ⟨c.hash.pairs.map (·.asWritten), .synthetic⟩⟩ .synthetic := by
  rw [asWritten, strip, Call.strip_eq, Hash.strip_eq]
  rfl

/-- The characters of plain names. -/
def isNameChar (c : Char) : Bool := c.isAlphanum || ['@', '.', '_', '-', ':', '/'].contains c

/-- Characters that a name can be made of, at least one. -/
def IsWord (w : List Char) : Prop := w ≠ [] ∧ w.all isNameChar = true

/-- A name that is not read as a literal. -/
structure IsPlainName (name : String) : Prop where
  isWord : IsWord name.toList
  notLiteral : name ∉ ["true", "false", "null", "undefined"]

namespace Expression

/-- No number literal is inside, and all paths and keys are plain names. -/
inductive Plain : Expression → Prop where
  | path {p : Path} (name : IsPlainName p.written) : Plain (.path p)
  | sub {call : Call} {loc : Span} (path : Plain call.path) (params : ∀ e ∈ call.params, Plain e)
      (keys : ∀ p ∈ call.hash.pairs, IsPlainName p.key)
      (values : ∀ p ∈ call.hash.pairs, Plain p.value) : Plain (.sub call loc)
  | string (value : String) (loc : Span) : Plain (.string value loc)
  | boolean (value : Bool) (loc : Span) : Plain (.boolean value loc)
  | null (loc : Span) : Plain (.null loc)
  | undefined (loc : Span) : Plain (.undefined loc)

/-- The expression that a word stands for. -/
def ofWord (w : String) : Expression :=
  if w = "true" then .boolean true .synthetic
  else if w = "false" then .boolean false .synthetic
  else if w = "null" then .null .synthetic
  else if w = "undefined" then .undefined .synthetic
  else .path ⟨w, false, false, [], .synthetic⟩

theorem ofWord_of_plain {name : String} (h : IsPlainName name) :
    ofWord name = .path ⟨name, false, false, [], .synthetic⟩ := by
  have hliteral := h.notLiteral
  simp only [List.mem_cons, List.not_mem_nil, or_false, not_or] at hliteral
  obtain ⟨htrue, hfalse, hnull, hundefined⟩ := hliteral
  rw [ofWord, if_neg htrue, if_neg hfalse, if_neg hnull, if_neg hundefined]

/-- Paths and literals without quotes are written as a word, from which they are read back. -/
def IsOfWord (e : Expression) : Prop :=
  IsWord (Printer.expression e) ∧ e.asWritten = ofWord (String.ofList (Printer.expression e))

theorem isOfWord_path {p : Path} (h : IsPlainName p.written) : (Expression.path p).IsOfWord := by
  refine ⟨h.isWord, ?_⟩
  rw [Printer.expression, String.ofList_toList, ofWord_of_plain h]
  rfl

theorem isOfWord_boolean (value : Bool) (loc : Span) : (boolean value loc).IsOfWord := by
  cases value
  · exact ⟨(show IsWord ['f', 'a', 'l', 's', 'e'] from ⟨List.cons_ne_nil _ _, by decide⟩), rfl⟩
  · exact ⟨(show IsWord ['t', 'r', 'u', 'e'] from ⟨List.cons_ne_nil _ _, by decide⟩), rfl⟩

theorem isOfWord_null (loc : Span) : (null loc).IsOfWord :=
  ⟨(show IsWord ['n', 'u', 'l', 'l'] from ⟨List.cons_ne_nil _ _, by decide⟩), rfl⟩

theorem isOfWord_undefined (loc : Span) : (undefined loc).IsOfWord :=
  ⟨(show IsWord ['u', 'n', 'd', 'e', 'f', 'i', 'n', 'e', 'd'] from
    ⟨List.cons_ne_nil _ _, by decide⟩), rfl⟩

/-- The three forms of the text of a plain expression. -/
theorem Plain.form {e : Expression} (h : e.Plain) :
    e.IsOfWord ∨ (∃ call loc, e = .sub call loc) ∨ ∃ value loc, e = .string value loc := by
  cases h with
  | path hname => exact .inl (isOfWord_path hname)
  | sub => exact .inr (.inl ⟨_, _, rfl⟩)
  | string value loc => exact .inr (.inr ⟨value, loc, rfl⟩)
  | boolean value loc => exact .inl (isOfWord_boolean value loc)
  | null loc => exact .inl (isOfWord_null loc)
  | undefined loc => exact .inl (isOfWord_undefined loc)

end Expression

namespace Printer

open Expression

/-! ### Tokens -/

/-- The rest of a text that does not go on with a name. -/
def EndsName (rest : List Char) : Prop := ∀ c ∈ rest.head?, isNameChar c = false

/-- The rest of a text behind an expression. -/
def EndsExpression (rest : List Char) : Prop := ∀ c ∈ rest.head?, c = ' ' ∨ c = ')'

theorem EndsExpression.endsName {rest : List Char} (h : EndsExpression rest) : EndsName rest := by
  intro c hc
  rcases h c hc with rfl | rfl
  · decide
  · decide

theorem endsName_assign (rest : List Char) : EndsName ('=' :: rest) := by
  rintro c ⟨⟩
  decide

theorem endsExpression_blank (rest : List Char) : EndsExpression (' ' :: rest) := by
  rintro c ⟨⟩
  exact .inl rfl

theorem endsExpression_close (rest : List Char) : EndsExpression (')' :: rest) := by
  rintro c ⟨⟩
  exact .inr rfl

theorem endsExpression_nil : EndsExpression [] := by
  rintro c ⟨⟩

/-- A word ends where the first other character stands. -/
theorem name_append_inj {w w' rest rest' : List Char} (hw : w.all isNameChar = true)
    (hw' : w'.all isNameChar = true) (hrest : EndsName rest) (hrest' : EndsName rest')
    (h : w ++ rest = w' ++ rest') : w = w' ∧ rest = rest' := by
  have htake (u r : List Char) (hu : u.all isNameChar = true) (hr : EndsName r) :
      (u ++ r).takeWhile isNameChar = u := by
    rw [List.takeWhile_append_of_pos (List.all_eq_true.mp hu)]
    cases r with
    | nil => exact List.append_nil u
    | cons c r => rw [List.takeWhile_cons_of_neg (Bool.not_eq_true _ ▸ hr c rfl), List.append_nil]
  have hsame : w = w' := by rw [← htake w rest hw hrest, h, htake w' rest' hw' hrest']
  subst hsame
  exact ⟨rfl, List.append_cancel_left h⟩

theorem escapeString_cons (c : Char) (s : List Char) :
    escapeString (c :: s) = (if c = '"' ∨ c = '\\' then ['\\', c] else [c]) ++ escapeString s :=
  List.flatMap_cons

/-- A string literal ends at the first quote without a backslash in front of it. -/
theorem escapeString_append_inj {s s' rest rest' : List Char}
    (h : escapeString s ++ '"' :: rest = escapeString s' ++ '"' :: rest') :
    s = s' ∧ rest = rest' := by
  induction s generalizing s' with
  | nil =>
      cases s' with
      | nil => exact ⟨rfl, (List.cons.inj h).2⟩
      | cons c s' =>
          rw [escapeString_cons] at h
          split at h
          next => simp [escapeString] at h
          next hc => exact absurd (.inl (List.cons.inj h).1.symm) hc
  | cons c s ih =>
      cases s' with
      | nil =>
          rw [escapeString_cons] at h
          split at h
          next => simp [escapeString] at h
          next hc => exact absurd (.inl (List.cons.inj h).1) hc
      | cons c' s' =>
          have hhead :
              c = c' ∧ escapeString s ++ '"' :: rest = escapeString s' ++ '"' :: rest' := by
            rw [escapeString_cons, escapeString_cons] at h
            split at h <;> split at h
            next => simpa using h
            next hc' => exact absurd (.inr (List.cons.inj h).1.symm) hc'
            next hc _ => exact absurd (.inr (List.cons.inj h).1) hc
            next => simpa using h
          obtain ⟨hs, hrest⟩ := ih hhead.2
          exact ⟨by rw [hhead.1, hs], hrest⟩

/-- Neither a bracket nor a quote is where a word is. -/
theorem ne_of_isWord {w rest rest' : List Char} {c : Char} (hw : IsWord w)
    (hc : isNameChar c = false) : w ++ rest ≠ c :: rest' := by
  intro h
  obtain ⟨hne, hw⟩ := hw
  cases w with
  | nil => exact hne rfl
  | cons b w =>
      have hb := List.all_eq_true.mp hw b List.mem_cons_self
      rw [(List.cons.inj h).1, hc] at hb
      cases hb

/-! ### Arguments -/

theorem arguments_cons (e : Expression) (es : List Expression) :
    arguments (e :: es) = ' ' :: (expression e ++ arguments es) := by
  rw [arguments]

theorem hashPairs_cons (p : HashPair) (ps : List HashPair) :
    hashPairs (p :: ps) = ' ' :: (p.key.toList ++ '=' :: (expression p.value ++ hashPairs ps)) := by
  cases p
  rw [hashPairs]

theorem expression_sub (c : Call) (loc : Span) :
    expression (.sub c loc) =
      '(' :: (expression c.path ++ arguments c.params ++ hashPairs c.hash.pairs ++ [')']) := by
  obtain ⟨path, params, pairs, hashLoc⟩ := c
  rw [expression, call, namedArguments]

theorem endsExpression_hashPairs (ps : List HashPair) (rest : List Char) :
    EndsExpression (hashPairs ps ++ ')' :: rest) := by
  cases ps with
  | nil => exact endsExpression_close rest
  | cons p ps =>
      rw [hashPairs_cons]
      exact endsExpression_blank _

theorem endsExpression_arguments (es : List Expression) {rest : List Char}
    (h : EndsExpression rest) : EndsExpression (arguments es ++ rest) := by
  cases es with
  | nil => exact h
  | cons e es =>
      rw [arguments_cons]
      exact endsExpression_blank _

/-- A positional argument is no named one: nothing that can stand behind an expression
assigns. -/
theorem expression_ne_key {e : Expression} {key : String} {rest rest' : List Char} (he : e.Plain)
    (hkey : IsPlainName key) (hrest : EndsExpression rest) :
    expression e ++ rest ≠ key.toList ++ '=' :: rest' := by
  intro h
  obtain hword | ⟨call, loc, rfl⟩ | ⟨value, loc, rfl⟩ := he.form
  · have hsame := (name_append_inj hword.1.2 hkey.isWord.2 hrest.endsName (endsName_assign _) h).2
    rcases hrest '=' (hsame ▸ rfl) with heq | heq
    · exact absurd heq (by decide)
    · exact absurd heq (by decide)
  · rw [expression_sub] at h
    exact ne_of_isWord hkey.isWord (by decide) h.symm
  · rw [expression, quoteString] at h
    exact ne_of_isWord hkey.isWord (by decide) h.symm

/-- The text of an expression determines it, and where its text ends in a longer one. -/
def Determined (e : Expression) : Prop :=
  ∀ ⦃e'⦄, e'.Plain → ∀ ⦃rest rest'⦄, EndsExpression rest → EndsExpression rest' →
    expression e ++ rest = expression e' ++ rest' → e.asWritten = e'.asWritten ∧ rest = rest'

theorem arguments_append_inj {es es' : List Expression} {ps ps' : List HashPair}
    {rest rest' : List Char} (hes : ∀ e ∈ es, e.Plain) (hdet : ∀ e ∈ es, Determined e)
    (hes' : ∀ e ∈ es', e.Plain) (hps : ∀ p ∈ ps, IsPlainName p.key)
    (hps' : ∀ p ∈ ps', IsPlainName p.key)
    (h : arguments es ++ (hashPairs ps ++ ')' :: rest) =
      arguments es' ++ (hashPairs ps' ++ ')' :: rest')) :
    es.map (·.asWritten) = es'.map (·.asWritten) ∧
      hashPairs ps ++ ')' :: rest = hashPairs ps' ++ ')' :: rest' := by
  have hend {qs : List HashPair} {r : List Char} (fs : List Expression) :
      EndsExpression (arguments fs ++ (hashPairs qs ++ ')' :: r)) :=
    endsExpression_arguments fs (endsExpression_hashPairs qs r)
  -- A list of named arguments cannot stand where one more positional argument does.
  have hdiffer {e : Expression} {fs : List Expression} {qs qs' : List HashPair}
      {r r' : List Char} (he : e.Plain) (hqs : ∀ p ∈ qs, IsPlainName p.key) :
      arguments (e :: fs) ++ (hashPairs qs' ++ ')' :: r') ≠ hashPairs qs ++ ')' :: r := by
    intro h
    rw [arguments_cons, List.cons_append, List.append_assoc] at h
    cases qs with
    | nil => exact absurd (List.cons.inj h).1 (by decide)
    | cons q qs =>
        rw [hashPairs_cons, List.cons_append, List.append_assoc, List.cons_append] at h
        exact expression_ne_key he (hqs q List.mem_cons_self) (hend fs) (List.cons.inj h).2
  induction es generalizing es' with
  | nil =>
      cases es' with
      | nil => exact ⟨rfl, h⟩
      | cons e' es' => exact absurd h.symm (hdiffer (hes' e' List.mem_cons_self) hps)
  | cons e es ih =>
      rw [List.forall_mem_cons] at hes hdet
      cases es' with
      | nil => exact absurd h (hdiffer hes.1 hps')
      | cons e' es' =>
          rw [List.forall_mem_cons] at hes'
          rw [arguments_cons, arguments_cons, List.cons_append, List.cons_append,
            List.append_assoc, List.append_assoc] at h
          obtain ⟨he, h⟩ := hdet.1 hes'.1 (hend es) (hend es') (List.cons.inj h).2
          obtain ⟨hrest, h⟩ := ih hes.2 hdet.2 hes'.2 h
          exact ⟨by rw [List.map_cons, List.map_cons, he, hrest], h⟩

theorem hashPairs_append_inj {ps ps' : List HashPair} {rest rest' : List Char}
    (hps : ∀ p ∈ ps, IsPlainName p.key) (hdet : ∀ p ∈ ps, Determined p.value)
    (hps' : ∀ p ∈ ps', IsPlainName p.key) (hvalues' : ∀ p ∈ ps', p.value.Plain)
    (h : hashPairs ps ++ ')' :: rest = hashPairs ps' ++ ')' :: rest') :
    ps.map (·.asWritten) = ps'.map (·.asWritten) ∧ rest = rest' := by
  induction ps generalizing ps' with
  | nil =>
      cases ps' with
      | nil => exact ⟨rfl, (List.cons.inj h).2⟩
      | cons p' ps' =>
          rw [hashPairs_cons] at h
          exact absurd (List.cons.inj h).1 (by decide)
  | cons p ps ih =>
      rw [List.forall_mem_cons] at hps hdet
      cases ps' with
      | nil =>
          rw [hashPairs_cons] at h
          exact absurd (List.cons.inj h).1 (by decide)
      | cons p' ps' =>
          rw [List.forall_mem_cons] at hps' hvalues'
          rw [hashPairs_cons, hashPairs_cons, List.cons_append, List.cons_append,
            List.append_assoc, List.append_assoc, List.cons_append, List.cons_append,
            List.append_assoc, List.append_assoc] at h
          obtain ⟨hkey, h⟩ := name_append_inj hps.1.isWord.2 hps'.1.isWord.2 (endsName_assign _)
            (endsName_assign _) (List.cons.inj h).2
          obtain ⟨hvalue, h⟩ := hdet.1 hvalues'.1 (endsExpression_hashPairs ps rest)
            (endsExpression_hashPairs ps' rest') (List.cons.inj h).2
          obtain ⟨hpairs, h⟩ := ih hps.2 hdet.2 hps'.2 hvalues'.2 h
          refine ⟨?_, h⟩
          rw [List.map_cons, List.map_cons, HashPair.asWritten_eq, HashPair.asWritten_eq, hvalue,
            String.toList_injective hkey, hpairs]

end Printer

namespace Expression

open Printer (EndsExpression Determined)

/-! ### Expressions -/

/-- A word is the text of no call and of no string literal. -/
theorem IsOfWord.determined {e : Expression} (h : e.IsOfWord) : Determined e := by
  intro e' he' rest rest' hrest hrest' heq
  obtain hword | ⟨call, loc, rfl⟩ | ⟨value, loc, rfl⟩ := he'.form
  · obtain ⟨hsame, hrest⟩ :=
      Printer.name_append_inj h.1.2 hword.1.2 hrest.endsName hrest'.endsName heq
    exact ⟨by rw [h.2, hword.2, hsame], hrest⟩
  · rw [Printer.expression_sub] at heq
    exact absurd heq (Printer.ne_of_isWord h.1 (by decide))
  · rw [Printer.expression, Printer.quoteString] at heq
    exact absurd heq (Printer.ne_of_isWord h.1 (by decide))

theorem determined_string (value : String) (loc : Span) : Determined (.string value loc) := by
  intro e' he' rest rest' _ _ heq
  rw [Printer.expression, Printer.quoteString] at heq
  obtain hword | ⟨call, loc', rfl⟩ | ⟨value', loc', rfl⟩ := he'.form
  · exact absurd heq.symm (Printer.ne_of_isWord hword.1 (by decide))
  · rw [Printer.expression_sub] at heq
    exact absurd (List.cons.inj heq).1 (by decide)
  · rw [Printer.expression, Printer.quoteString, List.cons_append, List.cons_append,
      List.append_assoc, List.append_assoc] at heq
    obtain ⟨hvalue, hrest⟩ := Printer.escapeString_append_inj (List.cons.inj heq).2
    rw [String.toList_injective hvalue]
    exact ⟨rfl, hrest⟩

/-- The text of a call, cut behind its path, its positional and its named arguments. -/
theorem determined_sub {call : Call} (loc : Span) (hparams : ∀ e ∈ call.params, e.Plain)
    (hkeys : ∀ p ∈ call.hash.pairs, IsPlainName p.key) (path : Determined call.path)
    (params : ∀ e ∈ call.params, Determined e)
    (values : ∀ p ∈ call.hash.pairs, Determined p.value) : Determined (.sub call loc) := by
  intro e' he' rest rest' _ _ heq
  rw [Printer.expression_sub] at heq
  obtain hword | ⟨call', loc', rfl⟩ | ⟨value, loc', rfl⟩ := he'.form
  · exact absurd heq.symm (Printer.ne_of_isWord hword.1 (by decide))
  · obtain _ | ⟨hpath', hparams', hkeys', hvalues'⟩ := he'
    rw [Printer.expression_sub] at heq
    simp only [List.cons_append, List.append_assoc, List.nil_append] at heq
    have hend {es : List Expression} {ps : List HashPair} {r : List Char} :
        EndsExpression (Printer.arguments es ++ (Printer.hashPairs ps ++ ')' :: r)) :=
      Printer.endsExpression_arguments es (Printer.endsExpression_hashPairs ps r)
    obtain ⟨hpath, heq⟩ := path hpath' hend hend (List.cons.inj heq).2
    obtain ⟨hparams, heq⟩ := Printer.arguments_append_inj hparams params hparams' hkeys hkeys' heq
    obtain ⟨hpairs, hrest⟩ := Printer.hashPairs_append_inj hkeys values hkeys' hvalues' heq
    exact ⟨by rw [asWritten_sub, asWritten_sub, hpath, hparams, hpairs], hrest⟩
  · rw [Printer.expression, Printer.quoteString] at heq
    exact absurd (List.cons.inj heq).1 (by decide)

theorem Plain.determined {e : Expression} (h : e.Plain) : Determined e := by
  induction h with
  | path hname => exact (isOfWord_path hname).determined
  | sub _ hparams hkeys _ path params values =>
      exact determined_sub _ hparams hkeys path params values
  | string value loc => exact determined_string value loc
  | boolean value loc => exact (isOfWord_boolean value loc).determined
  | null loc => exact (isOfWord_null loc).determined
  | undefined loc => exact (isOfWord_undefined loc).determined

/-- Of a path, only the written form is printed. -/
theorem printed_strip {f : Path → Path} (hf : ∀ p, (f p).written = p.written) (e : Expression) :
    Printer.expression (e.strip f) = Printer.expression e := by
  induction e using Expression.induction with
  | path p => rw [strip, Printer.expression, Printer.expression, hf]
  | sub call loc path params values =>
      have harguments : Printer.arguments (call.params.map (·.strip f)) =
          Printer.arguments call.params := by
        generalize call.params = es at params
        induction es with
        | nil => rfl
        | cons e es ih =>
            rw [List.forall_mem_cons] at params
            rw [List.map_cons, Printer.arguments_cons, Printer.arguments_cons, params.1,
              ih params.2]
      have hpairs : Printer.hashPairs (call.hash.pairs.map (·.strip f)) =
          Printer.hashPairs call.hash.pairs := by
        generalize call.hash.pairs = ps at values
        induction ps with
        | nil => rfl
        | cons p ps ih =>
            rw [List.forall_mem_cons] at values
            rw [List.map_cons, Printer.hashPairs_cons, Printer.hashPairs_cons, HashPair.strip_eq,
              values.1, ih values.2]
      rw [strip, Printer.expression_sub, Printer.expression_sub, Call.strip_eq, Hash.strip_eq,
        path, harguments, hpairs]
  | string value loc => rfl
  | boolean value loc => cases value <;> rfl
  | number value loc => rfl
  | null loc => rfl
  | undefined loc => rfl

/-- Two plain expressions have the same text just when they are the same but for places and
for what is derived from the written form of a path. -/
theorem print_eq_iff {e e' : Expression} (h : e.Plain) (h' : e'.Plain) :
    e.print = e'.print ↔ e.asWritten = e'.asWritten := by
  constructor
  · intro heq
    have htext := String.ofList_injective heq
    rw [← List.append_nil (Printer.expression e),
      ← List.append_nil (Printer.expression e')] at htext
    exact (h.determined h' Printer.endsExpression_nil Printer.endsExpression_nil htext).1
  · intro heq
    rw [print, print, ← printed_strip (f := Path.asWritten) (fun _ => rfl) e,
      ← printed_strip (f := Path.asWritten) (fun _ => rfl) e', ← asWritten, ← asWritten, heq]

/-- A call that is called again: `((at "…") key=x)`. -/
def calledAgain (params : List Expression) : Expression :=
  Build.sub (Build.sub (Build.path "at") params (Build.hash [])) []
    (Build.hash [Build.pair "key" (Build.path "x")])

theorem plain_calledAgain {params : List Expression} (h : ∀ e ∈ params, e.Plain) :
    (calledAgain params).Plain := by
  refine .sub (.sub (.path ⟨⟨by decide, by decide⟩, by decide⟩) h ?_ ?_) ?_ ?_ ?_
  · exact fun _ h => nomatch h
  · exact fun _ h => nomatch h
  · exact fun _ h => nomatch h
  · exact List.forall_mem_singleton.mpr ⟨⟨by decide, by decide⟩, by decide⟩
  · exact List.forall_mem_singleton.mpr (.path ⟨⟨by decide, by decide⟩, by decide⟩)

/-- One string with quotes inside is not two strings. -/
theorem print_eq_iff_quotes :
    (calledAgain [Build.string "a\" \"b"]).Plain ∧
      (calledAgain [Build.string "a", Build.string "b"]).Plain ∧
      (calledAgain [Build.string "a\" \"b"]).print ≠
        (calledAgain [Build.string "a", Build.string "b"]).print := by
  have hone : (calledAgain [Build.string "a\" \"b"]).Plain :=
    plain_calledAgain (List.forall_mem_singleton.mpr (.string _ _))
  have htwo : (calledAgain [Build.string "a", Build.string "b"]).Plain :=
    plain_calledAgain (List.forall_mem_cons.mpr
      ⟨.string _ _, List.forall_mem_singleton.mpr (.string _ _)⟩)
  refine ⟨hone, htwo, (print_eq_iff hone htwo).not.mpr ?_⟩
  intro h
  simp [calledAgain, Build.sub, Build.string, asWritten, strip, Call.strip] at h

end Expression

end CurlyTemplate
