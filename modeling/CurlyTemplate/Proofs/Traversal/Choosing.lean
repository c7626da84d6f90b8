import CurlyTemplate.Proofs.Lowering.Content
import CurlyTemplate.Proofs.Traversal.Recording
import CurlyTemplate.Proofs.Traversal.Termination

/-!
# Each statement once, in the order of the text

A visitor that leaves each element as it is, removes it, or puts a block around its
children, as the tag says, and that removes some mustaches, as the path says. It may put a
different block around each element, as its state tells it to. The walk shows it what does
not lie below a removed element, in the order of the text and each statement once; a block
that takes over the children of an element comes right behind that element
(`traverse_choosing`).

The calls are compared with the list of all statements, and what is left with the tree, so
neither is said by a walk. Which blocks take over stands in the answers of the visitor, and
these blocks, in their order, are shown and stand in the tree.
-/

namespace CurlyTemplate

namespace Visitor

/-- What becomes of an element. -/
inductive Choice where
  | keep
  | remove
  /-- A block takes over the children. -/
  | takeOver
deriving DecidableEq

/-- What is to become of elements, by their tag, and which mustaches go, by their path. -/
structure Chooser where
  element : String → Choice
  removes : Expression → Bool

/-- The children of an element are the body of a block. Behind `{{else}}` the block has at
most what no visitor is shown. -/
structure TakesOver (b : Block) (e : Element) : Prop where
  body : b.program.body = e.children
  unseen : ∀ x ∈ b.inverse.elim [] Program.body, x.isShown = false

namespace Chooser

/-- What a visitor may answer. -/
inductive Allows (c : Chooser) : Statement → Action → Prop
  | keep {e : Element} (h : c.element e.tag = .keep) : Allows c (.element e) .keep
  | remove {e : Element} (h : c.element e.tag = .remove) : Allows c (.element e) .remove
  | takeOver {e : Element} {b : Block} (h : c.element e.tag = .takeOver) (hb : TakesOver b e) :
      Allows c (.element e) (.replace (.block b))
  | keepMustache {m : Mustache} (h : c.removes m.call.path = false) :
      Allows c (.mustache m) .keep
  | removeMustache {m : Mustache} (h : c.removes m.call.path = true) :
      Allows c (.mustache m) .remove
  | block (b : Block) : Allows c (.block b) .keep
  | unseen {x : Statement} (h : x.isShown = false) : Allows c x .keep

/-- A visitor acts as it is told, and changes nothing about what it keeps. What it does with
its state is its own affair. -/
structure Guides {σ : Type} (c : Chooser) (v : Visitor σ) : Prop where
  allows : ∀ x s, c.Allows x (v.hook x s).1.1
  unchanged : ∀ x s, (v.hook x s).1.1 = .keep → (v.hook x s).1.2 = x

/-- The removed elements. Nothing below them is visited. -/
def drops (c : Chooser) : Statement → Bool
  | .element e => c.element e.tag = .remove
  | _ => false

/-- What is to become of a statement. -/
def choice (c : Chooser) : Statement → Choice
  | .element e => c.element e.tag
  | .mustache m => if c.removes m.call.path then .remove else .keep
  | _ => .keep

/-- The statements of a list are shown in order, each of them once, but for text and comments,
and are answered as they should be. The block in the answer about an element whose children
are taken over is shown next. -/
inductive Announces (c : Chooser) : List Statement → List (Statement × Action) → Prop
  | nil : Announces c [] []
  | unseen {x : Statement} {rest : List Statement} {calls : List (Statement × Action)}
      (hx : x.isShown = false) (h : Announces c rest calls) : Announces c (x :: rest) calls
  | kept {x : Statement} {rest : List Statement} {calls : List (Statement × Action)}
      (hx : x.isShown = true) (hchoice : c.choice x = .keep) (h : Announces c rest calls) :
      Announces c (x :: rest) ((x, .keep) :: calls)
  | removed {x : Statement} {rest : List Statement} {calls : List (Statement × Action)}
      (hx : x.isShown = true) (hchoice : c.choice x = .remove) (h : Announces c rest calls) :
      Announces c (x :: rest) ((x, .remove) :: calls)
  | takenOver {e : Element} {b : Block} {rest : List Statement}
      {calls : List (Statement × Action)} (he : c.element e.tag = .takeOver)
      (hb : TakesOver b e) (h : Announces c rest calls) :
      Announces c (.element e :: rest)
        ((.element e, .replace (.block b)) :: (.block b, .keep) :: calls)

mutual

/-- What is left of a statement, if anything: removed statements are gone with all inside, and
the elements whose children are taken over are replaced by some blocks, in the order of the
text. All else is as it was. -/
inductive Prunes (c : Chooser) : Statement → List Block → Option Statement → Prop
  | keep {e : Element} {blocks : List Block} {body : List Statement}
      (h : c.element e.tag = .keep) (hbody : PrunesAll c e.children blocks body) :
      Prunes c (.element e) blocks (some (.element { e with children := body }))
  | remove {e : Element} (h : c.element e.tag = .remove) : Prunes c (.element e) [] none
  | takeOver {e : Element} {b : Block} {blocks : List Block} {body : List Statement}
      (h : c.element e.tag = .takeOver) (hb : TakesOver b e)
      (hbody : PrunesAll c e.children blocks body) :
      Prunes c (.element e) (b :: blocks)
        (some (.block { b with program := { b.program with body := body } }))
  | keepMustache {m : Mustache} (h : c.removes m.call.path = false) :
      Prunes c (.mustache m) [] (some (.mustache m))
  | removeMustache {m : Mustache} (h : c.removes m.call.path = true) :
      Prunes c (.mustache m) [] none
  | block {b : Block} {blocks : List Block} {body : List Statement}
      (hinverse : b.inverse = none) (hbody : PrunesAll c b.program.body blocks body) :
      Prunes c (.block b) blocks
        (some (.block { b with program := { b.program with body := body } }))
  | blockElse {b : Block} {p : Program} {blocks later : List Block}
      {body others : List Statement} (hinverse : b.inverse = some p)
      (hbody : PrunesAll c b.program.body blocks body) (hothers : PrunesAll c p.body later others) :
      Prunes c (.block b) (blocks ++ later)
        (some (.block { b with
          program := { b.program with body := body }
          inverse := some { p with body := others } }))
  | unseen {x : Statement} (h : x.isShown = false) : Prunes c x [] (some x)

/-- What is left of a list of statements, in order. -/
inductive PrunesAll (c : Chooser) : List Statement → List Block → List Statement → Prop
  | nil : PrunesAll c [] [] []
  | cons {x : Statement} {rest others : List Statement} {blocks later : List Block}
      {left : Option Statement} (hfirst : Prunes c x blocks left)
      (hrest : PrunesAll c rest later others) :
      PrunesAll c (x :: rest) (blocks ++ later) (left.toList ++ others)

end

variable {c : Chooser} {x : Statement} {e : Element} {b : Block} {blocks : List Block}
  {statements others body : List Statement} {left : Option Statement}
  {calls later : List (Statement × Action)}

theorem Announces.append (h : c.Announces statements calls)
    (hlater : c.Announces others later) : c.Announces (statements ++ others) (calls ++ later) := by
  induction h with
  | nil => exact hlater
  | unseen hx _ ih => exact .unseen hx ih
  | kept hx hchoice _ ih => exact .kept hx hchoice ih
  | removed hx hchoice _ ih => exact .removed hx hchoice ih
  | takenOver he hb _ ih => exact .takenOver he hb ih

/-- Statements that are not shown make no difference at the end of a list. -/
theorem Announces.of_append_unseen (hunseen : ∀ x ∈ others, x.isShown = false)
    (h : c.Announces (statements ++ others) calls) : c.Announces statements calls := by
  induction statements generalizing calls with
  | nil =>
      induction others generalizing calls with
      | nil => exact h
      | cons x rest ih =>
          have hx := hunseen x List.mem_cons_self
          cases h with
          | unseen _ h => exact ih (fun y hy => hunseen y (List.mem_cons_of_mem x hy)) h
          | kept hshown _ _ | removed hshown _ _ => cases hx.symm.trans hshown
          | takenOver _ _ _ => cases hx
  | cons x rest ih =>
      cases h with
      | unseen hx h => exact .unseen hx (ih h)
      | kept hx hchoice h => exact .kept hx hchoice (ih h)
      | removed hx hchoice h => exact .removed hx hchoice (ih h)
      | takenOver he hb h => exact .takenOver he hb (ih h)

theorem Prunes.of_unseen (hx : x.isShown = false) (h : c.Prunes x blocks left) :
    blocks = [] ∧ left = some x := by
  cases h with
  | unseen _ => exact ⟨rfl, rfl⟩
  | _ => cases hx

theorem PrunesAll.of_unseen (hunseen : ∀ x ∈ statements, x.isShown = false)
    (h : c.PrunesAll statements blocks body) : blocks = [] ∧ body = statements := by
  induction statements generalizing blocks body with
  | nil =>
      cases h
      exact ⟨rfl, rfl⟩
  | cons x rest ih =>
      cases h with
      | cons hfirst hrest =>
          obtain ⟨rfl, rfl⟩ := hfirst.of_unseen (hunseen x List.mem_cons_self)
          obtain ⟨rfl, rfl⟩ := ih (fun y hy => hunseen y (List.mem_cons_of_mem x hy)) hrest
          exact ⟨rfl, rfl⟩

/-- The block that takes over is left as it would be in its own right. -/
theorem Prunes.of_takesOver (he : c.element e.tag = .takeOver) (hb : TakesOver b e)
    (h : c.Prunes (.block b) blocks left) : c.Prunes (.element e) (b :: blocks) left := by
  cases h with
  | block _ hbody =>
      rw [hb.body] at hbody
      exact .takeOver he hb hbody
  | @blockElse _ p _ _ _ _ hinverse hbody hothers =>
      have hunseen : ∀ x ∈ p.body, x.isShown = false := by
        simpa [hinverse] using hb.unseen
      obtain ⟨rfl, rfl⟩ := hothers.of_unseen hunseen
      rw [hb.body] at hbody
      cases p
      rw [List.append_nil, ← hinverse]
      exact .takeOver he hb hbody
  | unseen hx => cases hx

end Chooser

end Visitor

theorem Statement.unmarked_flagged (x : Statement) (picked : Statement → Bool) :
    unmarked (x.flagged picked false) =
      x :: if picked x then [] else
        x.parts.flatMap fun z => unmarked (z.flagged picked false) := by
  have hcons : unmarked (x.flagged picked false) =
      x :: unmarked (x.parts.flatMap (Statement.flagged picked (picked x))) := by
    rw [x.flagged_eq, Bool.false_or]
    rfl
  rw [hcons, unmarked_flatMap]
  cases picked x with
  | true =>
      refine congrArg _ (List.flatMap_eq_nil_iff.mpr fun z _ => ?_)
      exact unmarked_eq_nil fun _ hy => z.fst_of_mem_flagged hy
  | false => rfl

namespace Visitor

/-- The blocks that took over, as they stand in the answers. -/
def installed (answers : List (Statement × Action)) : List Block :=
  answers.filterMap fun answer =>
    match answer.2 with
    | .replace (.block b) => some b
    | _ => none

theorem installed_append (calls later : List (Statement × Action)) :
    installed (calls ++ later) = installed calls ++ installed later :=
  List.filterMap_append

namespace Chooser

/-- A statement and what is inside, but for what lies below a removed element. -/
def reached (c : Chooser) (x : Statement) : List Statement := unmarked (x.flagged c.drops false)

variable {c : Chooser} {x y : Statement} {e : Element} {b : Block} {blocks : List Block}
  {calls : List (Statement × Action)}

theorem reached_eq (x : Statement) :
    c.reached x = x :: if c.drops x then [] else x.parts.flatMap c.reached :=
  x.unmarked_flagged c.drops

theorem reached_of_unseen (h : x.isShown = false) : c.reached x = [x] := by
  cases x with
  | element | mustache | block => cases h
  | text | comment | mustacheComment => rfl

theorem reached_block (b : Block) :
    c.reached (.block b) = .block b :: (b.program.body.flatMap c.reached ++
      (b.inverse.elim [] Program.body).flatMap c.reached) := by
  rw [reached_eq, Statement.parts_block, List.flatMap_append]
  rfl

theorem reached_element (h : c.element e.tag ≠ .remove) :
    c.reached (.element e) = .element e :: e.children.flatMap c.reached := by
  have hdrops : c.drops (.element e) = false := decide_eq_false h
  rw [reached_eq, hdrops]
  rfl

theorem reached_remove (h : c.element e.tag = .remove) :
    c.reached (.element e) = [.element e] := by
  have hdrops : c.drops (.element e) = true := decide_eq_true h
  rw [reached_eq, hdrops]
  rfl

/-- The block that takes over is shown behind the element, and what is inside only then. -/
theorem Announces.of_takesOver (he : c.element e.tag = .takeOver) (hb : TakesOver b e)
    (h : c.Announces (c.reached (.block b)) calls) :
    c.Announces (c.reached (.element e)) ((.element e, .replace (.block b)) :: calls) := by
  have hreached : c.reached (.element e) = .element e :: e.children.flatMap c.reached := by
    rw [reached_element]
    rw [he]
    exact nofun
  have hunseen : ∀ x ∈ (b.inverse.elim [] Program.body).flatMap c.reached,
      x.isShown = false := by
    intro x hx
    obtain ⟨z, hz, hx⟩ := List.mem_flatMap.mp hx
    rw [reached_of_unseen (hb.unseen z hz), List.mem_singleton] at hx
    rw [hx]
    exact hb.unseen z hz
  rw [reached_block, hb.body] at h
  rw [hreached]
  cases h with
  | unseen hx _ => cases hx
  | kept _ _ h => exact .takenOver he hb (h.of_append_unseen hunseen)
  | removed _ hchoice _ => cases hchoice

namespace Guides

variable {σ : Type} {v : Visitor σ} {s t : σ} {action : Action}

theorem allows_of_hook (h : c.Guides v) (hhook : v.hook x s = ((action, y), t)) :
    c.Allows x action := by
  have hallows := h.allows x s
  rwa [hhook] at hallows

theorem eq_of_keep (h : c.Guides v) (hhook : v.hook x s = ((.keep, y), t)) : y = x := by
  have hsame := h.unchanged x s
  rw [hhook] at hsame
  exact hsame rfl

/-- What is left, and what is shown and answered in the calls. -/
def law (h : c.Guides v) : Law v where
  statement x _ left _ calls := c.Prunes x (installed (answers calls)) left ∧
    c.Announces (c.reached x) (answers calls)
  statements statements _ left _ calls := c.PrunesAll statements (installed (answers calls)) left ∧
    c.Announces (statements.flatMap c.reached) (answers calls)
  program p _ q _ calls := ∃ body, q = { p with body := body } ∧
    c.PrunesAll p.body (installed (answers calls)) body ∧
    c.Announces (p.body.flatMap c.reached) (answers calls)
  nil _ := ⟨.nil, .nil⟩
  cons hfirst hrest := by
    rw [answers_append, installed_append, List.flatMap_cons]
    exact ⟨.cons hfirst.1 hrest.1, hfirst.2.append hrest.2⟩
  body hbody := by
    rw [answers_program]
    exact ⟨_, rfl, hbody⟩
  unseen hx := by
    rw [reached_of_unseen hx]
    exact ⟨.unseen hx, .unseen hx .nil⟩
  element {e k s t _ _ _} he hchildren := by
    have hhook : v.hook (.element e) s = ((.keep, .element k), t) := by
      simp [hook, he]
    cases h.eq_of_keep hhook
    obtain ⟨hpruned, hcalls⟩ := hchildren
    cases h.allows_of_hook hhook with
    | keep hkeep =>
        refine ⟨.keep hkeep hpruned, ?_⟩
        rw [reached_element (by rw [hkeep]; exact nofun)]
        exact .kept rfl hkeep hcalls
    | unseen hx => cases hx
  mustache {m k s t} hm := by
    have hhook : v.hook (.mustache m) s = ((.keep, .mustache k), t) := by
      simp [hook, hm]
    cases h.eq_of_keep hhook
    cases h.allows_of_hook hhook with
    | keepMustache hkeep => exact ⟨.keepMustache hkeep, .kept rfl (if_neg (by simp [hkeep])) .nil⟩
    | unseen hx => cases hx
  block {b k s t q u r w calls later} hb hprogram hinverse := by
    have hhook : v.hook (.block b) s = ((.keep, .block k), t) := by
      simp [hook, hb]
    cases h.eq_of_keep hhook
    obtain ⟨body, rfl, hpruned, hcalls⟩ := hprogram
    rw [answers_shown, answers_append, reached_block]
    have hsame : installed ((.block b, .keep) :: (answers calls ++ answers later)) =
        installed (answers calls) ++ installed (answers later) := installed_append _ _
    rw [hsame]
    cases hp : b.inverse with
    | none =>
        rw [hp] at hinverse
        obtain ⟨rfl, -, rfl⟩ := hinverse
        have hblock : c.Prunes (.block b) _ _ := .block hp hpruned
        rw [hp] at hblock
        have hnone : installed (answers []) = [] := rfl
        rw [hnone, List.append_nil]
        refine ⟨hblock, .kept rfl rfl ?_⟩
        simpa [answers] using hcalls
    | some p =>
        rw [hp] at hinverse
        obtain ⟨r, rfl, others, rfl, hothers, hlater⟩ := hinverse
        exact ⟨.blockElse hp hpruned hothers, .kept rfl rfl (hcalls.append hlater)⟩
  replace hhook hleft := by
    obtain ⟨hpruned, hcalls⟩ := hleft
    cases h.allows_of_hook hhook with
    | takeOver he hb => exact ⟨hpruned.of_takesOver he hb, hcalls.of_takesOver he hb⟩
  remove hhook := by
    cases h.allows_of_hook hhook with
    | remove he =>
        refine ⟨.remove he, ?_⟩
        rw [reached_remove he]
        exact .removed rfl he .nil
    | removeMustache hm => exact ⟨.removeMustache hm, .removed rfl (if_pos hm) .nil⟩

/-- A block has the elements of the element it stands for, but for this one. -/
theorem dwindles (h : c.Guides v) : v.Dwindles (fun _ => 0) fun x => x.elements.length where
  enter _ _ := Nat.le_refl _
  exit _ _ := Nat.le_refl _
  keep hhook := by
    rw [h.eq_of_keep hhook]
    exact ⟨Nat.le_refl _, Nat.le_refl _, Nat.le_refl _⟩
  replace hhook := by
    cases h.allows_of_hook hhook with
    | @takeOver e b he hb =>
        have hunseen : (b.inverse.elim [] Program.body).flatMap Statement.elements = [] := by
          rw [List.flatMap_eq_nil_iff]
          intro x hx
          have hnot := hb.unseen x hx
          cases x with
          | element | mustache | block => cases hnot
          | text | comment | mustacheComment => rfl
        refine ⟨Nat.le_refl _, ?_⟩
        rw [Statement.elements_element, Statement.elements_eq, Statement.parts_block,
          List.flatMap_append, hunseen, hb.body]
        simp [Statement.element?]
  remove _ := Nat.le_refl _
  inside hz := Statement.elements_length_le_of_mem_parts hz

end Guides

theorem PrunesAll.eq_self {statements body : List Statement}
    (h : c.PrunesAll statements blocks body)
    (hkept : ∀ x ∈ statements, ∀ blocks left, c.Prunes x blocks left → left = some x) :
    body = statements := by
  induction statements generalizing blocks body with
  | nil =>
      cases h
      rfl
  | cons x rest ih =>
      cases h with
      | cons hfirst hrest =>
          rw [hkept x List.mem_cons_self _ _ hfirst,
            ih hrest fun y hy => hkept y (List.mem_cons_of_mem x hy)]
          rfl

/-- Where everything is kept, nothing changes. -/
theorem Prunes.eq_self {left : Option Statement} (helement : ∀ tag, c.element tag = .keep)
    (hmustache : ∀ path, c.removes path = false) (h : c.Prunes x blocks left) :
    left = some x := by
  induction x using Statement.induction generalizing blocks left with
  | element e ih =>
      cases h with
      | keep _ hbody =>
          rw [hbody.eq_self fun s hs _ _ => ih s hs]
          cases e
          rfl
      | remove h => cases h.symm.trans (helement e.tag)
      | takeOver h _ _ => cases h.symm.trans (helement e.tag)
      | unseen hx => cases hx
  | block b ihprogram ihinverse =>
      cases h with
      | block _ hbody =>
          rw [hbody.eq_self fun s hs _ _ => ihprogram s hs]
          obtain ⟨_, ⟨_, _, _⟩, _, _, _⟩ := b
          rfl
      | @blockElse _ p _ _ _ _ hinverse hbody hothers =>
          rw [hbody.eq_self fun s hs _ _ => ihprogram s hs,
            hothers.eq_self fun s hs _ _ => ihinverse p hinverse s hs]
          cases p
          rw [← hinverse]
          obtain ⟨_, ⟨_, _, _⟩, _, _, _⟩ := b
          rfl
      | unseen hx => cases hx
  | mustache m =>
      cases h with
      | keepMustache _ => rfl
      | removeMustache h => cases h.symm.trans (hmustache m.call.path)
      | unseen hx => cases hx
  | text | comment | mustacheComment => exact (h.of_unseen rfl).2

end Chooser

variable {σ : Type} {v : Visitor σ} {c : Chooser}

/-- A visitor that is told what to do with elements and mustaches comes to an end, from some
depth on always in the same way. By then it has been shown every statement that does not lie
below a removed element, once and in the order of the text, and has answered as it was told;
the block in its answer about an element whose children are taken over is shown right behind
that element. Left is what was not removed, with these blocks in the place of these elements.
If all is kept, the tree stays as it is. -/
theorem traverse_choosing (h : c.Guides v) (p : Program) (s : σ) :
    ∃ depth body t log,
      (∀ more, v.traverse (depth + more) p s = some ({ p with body := body }, t) ∧
        v.recording.traverse (depth + more) p (s, []) =
          some ({ p with body := body }, t, log)) ∧
      v.Gave (answers log) ∧
      (p.flagged c.drops false).map Prod.snd = p.statements ∧
      c.Announces (unmarked (p.flagged c.drops false)) (answers log) ∧
      c.PrunesAll p.body (installed (answers log)) body ∧
      ((∀ tag, c.element tag = .keep) → (∀ path, c.removes path = false) → body = p.body) := by
  obtain ⟨depth, ⟨q, t⟩, hends⟩ := h.dwindles.traverse_ends p s
  obtain ⟨log, ⟨body, rfl, hpruned, hcalls⟩, hrun⟩ := h.law.traverse (hends 0)
  obtain ⟨log', hgave, hrun'⟩ := (Law.answering v).traverse (hends 0)
  obtain rfl : log = log' := by
    have hsame := (hrun []).symm.trans (hrun' [])
    simpa using hsame
  refine ⟨depth, body, t, log, fun more => ⟨hends more, ?_⟩, hgave,
    p.map_snd_flagged c.drops false, ?_, hpruned, fun helement hmustache => ?_⟩
  · exact traverse_mono (Nat.le_add_right depth more) (hrun [])
  · rw [Program.flagged_eq, unmarked_flatMap]
    exact hcalls
  · exact hpruned.eq_self fun _ _ _ _ hx => hx.eq_self helement hmustache

/-- Takes the children of `<wrap>` over, and removes `<script>` and `{{debugger}}`. -/
def unwrapping : Chooser where
  element tag :=
    if tag = "wrap" then .takeOver else if tag = "script" then .remove else .keep
  removes path :=
    match path.path? with
    | some p => p.written = "debugger"
    | none => false

/-- `{{#wrapper item}}…{{/wrapper}}` -/
def wrapper (item : String) (body : List Statement) : Block :=
  let call : Call := ⟨Build.path "wrapper", [Build.path item], Build.hash []⟩
  Build.block call (Build.program body []) none .synthetic

/-- Does what `unwrapping` says, and takes the items for the blocks from its state. -/
def unwrapper : Visitor (List String) :=
  { keeping with
    element := fun e items =>
      match unwrapping.element e.tag with
      | .keep => ((.keep, e), items)
      | .remove => ((.remove, e), items)
      | .takeOver =>
          ((.replace (.block (wrapper (items.headD "none") e.children)), e), items.tail)
    mustache := fun m items =>
      ((if unwrapping.removes m.call.path then .remove else .keep, m), items) }

theorem guides_unwrapper : unwrapping.Guides unwrapper where
  allows x items := by
    cases x with
    | element e =>
        cases h : unwrapping.element e.tag <;> simp only [hook, unwrapper, h]
        · exact .keep h
        · exact .remove h
        · exact .takeOver h ⟨rfl, nofun⟩
    | mustache m =>
        cases h : unwrapping.removes m.call.path <;> simp only [hook, unwrapper, h]
        · exact .keepMustache h
        · exact .removeMustache h
    | block b => exact .block b
    | text | comment | mustacheComment => exact .unseen rfl
  unchanged x items h := by
    cases x with
    | element e => cases he : unwrapping.element e.tag <;> simp_all [hook, unwrapper]
    | mustache | block | text | comment | mustacheComment => rfl

/-- What is moved into a block is shown once, and what is below `<script>` not at all. Each
block has an item of its own. -/
theorem traverse_choosing_unwrapper :
    let markup (tag : String) (children : List Statement) : Statement :=
      .element { Build.element tag .synthetic with children := children }
    let debugger := Build.mustache ⟨Build.path "debugger", [], Build.hash []⟩ .synthetic
    let script := markup "script" [markup "i" []]
    let children := [.mustache debugger, markup "wrap" []]
    let root := Build.program [markup "wrap" children, script] []
    let left : Statement := .block (wrapper "a" [.block (wrapper "b" [])])
    let answered : List (Statement × Action) :=
      [(markup "wrap" children, .replace (.block (wrapper "a" children))),
        (.block (wrapper "a" children), .keep), (.mustache debugger, .remove),
        (markup "wrap" [], .replace (.block (wrapper "b" []))), (.block (wrapper "b" []), .keep),
        (script, .remove)]
    unwrapping.Guides unwrapper ∧
    ∃ depth t log,
      unwrapper.recording.traverse depth root (["a", "b"], []) =
        some (Build.program [left] [], t, log) ∧
      answers log = answered ∧ unwrapper.Gave answered ∧
      unwrapping.Announces (markup "wrap" children :: (children ++ [script])) answered ∧
      unwrapping.PrunesAll root.body [wrapper "a" children, wrapper "b" []] [left] := by
  intro markup debugger script children root left answered
  have hrun : (unwrapper.recording.traverse 5 root (["a", "b"], [])).map
      (fun r => (r.1, answers r.2.2)) = some (Build.program [left] [], answered) := rfl
  obtain ⟨⟨q, u, calls⟩, hcalls, heq⟩ := Option.map_eq_some_iff.mp hrun
  obtain ⟨rfl, hanswered⟩ := Prod.mk.inj heq
  obtain ⟨depth, body, t, log, hruns, hgave, -, hannounced, hpruned, -⟩ :=
    traverse_choosing guides_unwrapper root ["a", "b"]
  have hlonger := traverse_mono (Nat.le_add_left 5 depth) hcalls
  cases (hruns 5).2.symm.trans hlonger
  rw [hanswered] at hgave hannounced hpruned
  exact ⟨guides_unwrapper, depth + 5, u, calls, hlonger, hanswered, hgave, hannounced, hpruned⟩

end Visitor

end CurlyTemplate
