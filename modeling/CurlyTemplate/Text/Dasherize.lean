/-!
# Dashed names

A component is written in capitals inside a tag (`<FooBar>`) and in dashes as a
curly path (`foo-bar`). `dasherize` takes the first spelling to the second: each
ASCII capital becomes lower case, and a dash is put in front of it when an ASCII
letter stands right before it. A capital after a dot, a colon, a digit or a letter
beyond ASCII gets no dash.
-/

namespace CurlyTemplate

namespace Text

/-- The dashed spelling of the remaining characters. The flag tells whether the
character before them is an ASCII letter. -/
def dashed : Bool → List Char → List Char
  | _, [] => []
  | afterLetter, c :: rest =>
      if c.isUpper then
        if afterLetter then '-' :: c.toLower :: dashed true rest
        else c.toLower :: dashed true rest
      else c :: dashed c.isAlpha rest

@[simp] theorem dashed_nil (afterLetter : Bool) : dashed afterLetter [] = [] := rfl

theorem dashed_cons (afterLetter : Bool) (c : Char) (rest : List Char) :
    dashed afterLetter (c :: rest) =
      if c.isUpper then
        if afterLetter then '-' :: c.toLower :: dashed true rest
        else c.toLower :: dashed true rest
      else c :: dashed c.isAlpha rest := rfl

/-- Text without capitals is its own dashed spelling. -/
theorem dashed_eq_self {afterLetter : Bool} {s : List Char}
    (h : ∀ c ∈ s, c.isUpper = false) : dashed afterLetter s = s := by
  induction s generalizing afterLetter with
  | nil => rfl
  | cons c rest ih =>
      simp only [List.mem_cons, forall_eq_or_imp] at h
      simp [dashed_cons, h.1, ih h.2]

def dasherize (name : String) : String :=
  String.ofList (dashed false name.toList)

end Text

end CurlyTemplate
