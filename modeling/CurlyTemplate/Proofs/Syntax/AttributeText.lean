import CurlyTemplate.Syntax.Printer
import Mathlib.Data.List.Infix

/-!
# The text of attribute values

Between the quotes of an attribute a quote is written as an entity, and all else as it is, so
that the value ends at the next quote (`quote_not_mem_escapeAttribute`). Who puts quotes back
for the entities gets what he would get from the text itself (`unescapeAttribute_escapeAttribute`):
texts are told apart just as far as they differ beyond that (`escapeAttribute_eq_iff`), and a
text survives just when no entity stands in it (`unescapeAttribute_eq_self_iff`).
-/

namespace CurlyTemplate

namespace Printer

/-- How a quote is written in an attribute value. -/
def quoteEntity : List Char := ['&', 'q', 'u', 'o', 't', ';']

/-- A text with a quote for each entity of one. -/
def unescapeAttribute : List Char → List Char
  | [] => []
  | '&' :: 'q' :: 'u' :: 'o' :: 't' :: ';' :: rest => '"' :: unescapeAttribute rest
  | c :: rest => c :: unescapeAttribute rest

/-- A text begins with an entity, or with a character that begins none. -/
@[elab_as_elim]
theorem entityInduction {motive : List Char → Prop} (nil : motive [])
    (entity : ∀ s, motive s → motive (quoteEntity ++ s))
    (char : ∀ c s, ¬ quoteEntity <+: c :: s → motive s → motive (c :: s))
    (s : List Char) : motive s := by
  induction s using unescapeAttribute.induct with
  | case1 => exact nil
  | case2 s ih => exact entity s ih
  | case3 c s hother ih =>
      refine char c s ?_ ih
      rintro ⟨rest, hrest⟩
      obtain ⟨rfl, rfl⟩ := List.cons.inj hrest
      exact hother rest rfl rfl

section Equations

variable {c : Char} {s : List Char}

theorem unescapeAttribute_entity (s : List Char) :
    unescapeAttribute (quoteEntity ++ s) = '"' :: unescapeAttribute s := rfl

theorem unescapeAttribute_char (h : ¬ quoteEntity <+: c :: s) :
    unescapeAttribute (c :: s) = c :: unescapeAttribute s := by
  rw [unescapeAttribute]
  rintro rest rfl rfl
  exact h ⟨rest, rfl⟩

theorem escapeAttribute_quote (s : List Char) :
    escapeAttribute ('"' :: s) = quoteEntity ++ escapeAttribute s := rfl

theorem escapeAttribute_char (h : c ≠ '"') (s : List Char) :
    escapeAttribute (c :: s) = c :: escapeAttribute s := by
  simp [escapeAttribute, h]

theorem escapeAttribute_entity (s : List Char) :
    escapeAttribute (quoteEntity ++ s) = quoteEntity ++ escapeAttribute s := rfl

end Equations

theorem quote_not_mem_escapeAttribute (s : List Char) : '"' ∉ escapeAttribute s := by
  intro h
  obtain ⟨c, _, hc⟩ := List.mem_flatMap.mp h
  split at hc
  next => exact absurd hc (by decide)
  next hne => exact hne (List.mem_singleton.mp hc).symm

/-- What is written for a quote begins with an ampersand, so that what follows one in the
written text followed it in the text. -/
theorem prefix_of_prefix_escapeAttribute {w s : List Char} (hw : '&' ∉ w)
    (h : w <+: escapeAttribute s) : w <+: s := by
  induction w generalizing s with
  | nil => exact List.nil_prefix
  | cons d w ih =>
      rw [List.mem_cons, not_or] at hw
      cases s with
      | nil => exact absurd h (by simp [escapeAttribute])
      | cons c s =>
          by_cases hc : c = '"'
          · rw [hc, escapeAttribute_quote, quoteEntity, List.cons_append,
              List.cons_prefix_cons] at h
            exact absurd h.1.symm hw.1
          · rw [escapeAttribute_char hc, List.cons_prefix_cons] at h
            exact List.cons_prefix_cons.mpr ⟨h.1, ih hw.2 h.2⟩

theorem unescapeAttribute_escapeAttribute (s : List Char) :
    unescapeAttribute (escapeAttribute s) = unescapeAttribute s := by
  induction s using entityInduction with
  | nil => rfl
  | entity s ih =>
      rw [escapeAttribute_entity, unescapeAttribute_entity, unescapeAttribute_entity, ih]
  | char c s h ih =>
      rw [unescapeAttribute_char h]
      by_cases hc : c = '"'
      · rw [hc, escapeAttribute_quote, unescapeAttribute_entity, ih]
      · have hescaped : ¬ quoteEntity <+: c :: escapeAttribute s := by
          intro hentity
          obtain ⟨hfirst, hrest⟩ := List.cons_prefix_cons.mp hentity
          exact h (List.cons_prefix_cons.mpr
            ⟨hfirst, prefix_of_prefix_escapeAttribute (by decide) hrest⟩)
        rw [escapeAttribute_char hc, unescapeAttribute_char hescaped, ih]

theorem escapeAttribute_unescapeAttribute (s : List Char) :
    escapeAttribute (unescapeAttribute s) = escapeAttribute s := by
  induction s using entityInduction with
  | nil => rfl
  | entity s ih =>
      rw [unescapeAttribute_entity, escapeAttribute_quote, escapeAttribute_entity, ih]
  | char c s h ih =>
      rw [unescapeAttribute_char h]
      by_cases hc : c = '"'
      · rw [hc, escapeAttribute_quote, escapeAttribute_quote, ih]
      · rw [escapeAttribute_char hc, escapeAttribute_char hc, ih]

/-- Two texts are written alike just when they are the same but for how quotes are spelled. -/
theorem escapeAttribute_eq_iff {s t : List Char} :
    escapeAttribute s = escapeAttribute t ↔ unescapeAttribute s = unescapeAttribute t := by
  constructor
  · intro h
    rw [← unescapeAttribute_escapeAttribute s, h, unescapeAttribute_escapeAttribute]
  · intro h
    rw [← escapeAttribute_unescapeAttribute s, h, escapeAttribute_unescapeAttribute]

theorem unescapeAttribute_eq_self_iff (s : List Char) :
    unescapeAttribute s = s ↔ ¬ quoteEntity <:+: s := by
  induction s using entityInduction with
  | nil => simp [unescapeAttribute, quoteEntity]
  | entity s _ =>
      rw [unescapeAttribute_entity]
      refine iff_of_false ?_ (not_not_intro (List.prefix_append _ s).isInfix)
      exact fun h => absurd (List.cons.inj h).1 (by decide)
  | char c s h ih =>
      rw [unescapeAttribute_char h, List.infix_cons_iff, List.cons_eq_cons, ih]
      simp [h]

/-- The text of a value as it stands between quotes. -/
structure Quotes (value text : List Char) : Prop where
  /-- The value ends at the next quote. -/
  quote_not_mem : '"' ∉ value
  unescape_eq : unescapeAttribute value = unescapeAttribute text
  unescape_eq_iff : unescapeAttribute value = text ↔ ¬ quoteEntity <:+: text

theorem quotes_escapeAttribute (s : List Char) : Quotes (escapeAttribute s) s where
  quote_not_mem := quote_not_mem_escapeAttribute s
  unescape_eq := unescapeAttribute_escapeAttribute s
  unescape_eq_iff := by
    rw [unescapeAttribute_escapeAttribute, unescapeAttribute_eq_self_iff]

theorem attributeChars_text {t : TextNode} (h : t.chars ≠ "") (name : String) (loc : Span) :
    attributeChars ⟨name, .text t, loc⟩ =
      name.toList ++ '=' :: '"' :: (escapeAttribute t.chars.toList ++ ['"']) := by
  simp [attributeChars, h]

/-- Two text values of an attribute are written alike just when they are the same but for how
quotes are spelled. In quotes, as the value or as a piece of it, a text is kept just when no
entity of a quote stands in it. -/
theorem attributeChars_text_eq_iff (name : String) {s t : TextNode} (hs : s.chars ≠ "")
    (ht : t.chars ≠ "") (loc loc' : Span) (part : TextNode) :
    (attributeChars ⟨name, .text s, loc⟩ = attributeChars ⟨name, .text t, loc'⟩ ↔
        unescapeAttribute s.chars.toList = unescapeAttribute t.chars.toList) ∧
      (∃ value, Quotes value s.chars.toList ∧
        attributeChars ⟨name, .text s, loc⟩ = name.toList ++ '=' :: '"' :: (value ++ ['"'])) ∧
      Quotes (concatPart (.text part)) part.chars.toList := by
  refine ⟨?_, ⟨_, quotes_escapeAttribute _, attributeChars_text hs name loc⟩,
    quotes_escapeAttribute _⟩
  rw [attributeChars_text hs, attributeChars_text ht, ← escapeAttribute_eq_iff]
  simp

/-- Ampersands and semicolons around a quote are no entity. -/
theorem attributeChars_text_eq_iff_ampersands :
    let s : TextNode := ⟨"&\";", .synthetic⟩
    let t : TextNode := ⟨"&quot\"", .synthetic⟩
    (s.chars ≠ "" ∧ t.chars ≠ "") ∧
      attributeChars ⟨"title", .text s, .synthetic⟩ ≠
        attributeChars ⟨"title", .text t, .synthetic⟩ ∧
      Quotes (concatPart (.text s)) s.chars.toList := by
  intro s t
  have hs : s.chars ≠ "" := by decide
  have ht : t.chars ≠ "" := by decide
  obtain ⟨heq, -, hpart⟩ :=
    attributeChars_text_eq_iff "title" hs ht .synthetic .synthetic s
  exact ⟨⟨hs, ht⟩, heq.not.mpr (by decide), hpart⟩

/-- A quote and the entity of one are written alike. -/
theorem not_textDetermined_entity :
    ¬ ∀ (name : String) (s t : TextNode) (loc loc' : Span), s.chars ≠ "" → t.chars ≠ "" →
      attributeChars ⟨name, .text s, loc⟩ = attributeChars ⟨name, .text t, loc'⟩ →
        s.chars = t.chars := by
  intro h
  have hsame := h "title" ⟨"\"", .synthetic⟩ ⟨"&quot;", .synthetic⟩ .synthetic .synthetic
    (by decide) (by decide) (by decide)
  exact absurd hsame (by decide)

end Printer

end CurlyTemplate
