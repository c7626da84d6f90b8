import CurlyTemplate.Proofs.Lowering.Simulation
import CurlyTemplate.Proofs.Tree.Nodes

/-!
# Two runs side by side

One tree is lowered twice, with two sources and in two scopes that are related. Both runs go
down the tree together, and the same names come into scope in both. As long as related scopes
give each element the same form the results are the same
(`Statement.lowered_eq_of_sameForms`).
-/

namespace CurlyTemplate

namespace Component

/-- Among some nodes each element has the same form for both sources, in any two scopes that
are related. The names that stand beside the nodes do not matter. -/
def SameForms (source source' : Source) (related : Scope → Scope → Prop)
    (nodes : List (Scope × Statement)) : Prop :=
  ∀ names e, (names, Statement.element e) ∈ nodes →
    ∀ scope scope', related scope scope' → form source scope e = form source' scope' e

theorem SameForms.mono {source source' : Source} {related : Scope → Scope → Prop}
    {nodes nodes' : List (Scope × Statement)} (h : SameForms source source' related nodes)
    (hsub : nodes' ⊆ nodes) : SameForms source source' related nodes' :=
  fun names e he => h names e (hsub he)

end Component

open Component (Scope SameForms form)

variable {source source' : Source} {related : Scope → Scope → Prop}
  (hpush : ∀ scope scope' names, related scope scope' →
    related (scope.push names) (scope'.push names))

include hpush

theorem Program.lowered_eq_of_body {p : Program} {scope scope' outer : Scope}
    (hbody : ∀ s ∈ p.body, ∀ {scope scope' outer : Scope},
      SameForms source source' related (s.nodes outer) → related scope scope' →
        s.lowered source scope = s.lowered source' scope')
    (hforms : SameForms source source' related (p.nodes outer)) (h : related scope scope') :
    p.lowered source scope = p.lowered source' scope' := by
  have hsame : p.body.map (Statement.lowered source (scope.push p.blockParams)) =
      p.body.map (Statement.lowered source' (scope'.push p.blockParams)) :=
    List.map_congr_left fun s hs =>
      hbody s hs (hforms.mono (nodes_subset_of_body hs)) (hpush _ _ _ h)
  rw [lowered_eq, lowered_eq, hsame]

theorem Statement.lowered_eq_of_sameForms (s : Statement) {scope scope' outer : Scope}
    (hforms : SameForms source source' related (s.nodes outer)) (h : related scope scope') :
    s.lowered source scope = s.lowered source' scope' := by
  -- Both scopes grow on the way down, and the form tells by which names, so it comes first.
  induction s using Statement.induction generalizing scope scope' outer with
  | element e ih =>
      have hform : form source scope e = form source' scope' e :=
        hforms outer e (Statement.mem_nodes_self outer _) scope scope' h
      have hchildren {scope scope' : Scope} (h : related scope scope') :
          e.children.map (Statement.lowered source scope) =
            e.children.map (Statement.lowered source' scope') :=
        List.map_congr_left fun s hs => ih s hs (hforms.mono (nodes_subset_of_child hs)) h
      cases hform' : form source' scope' e with
      | markup kept =>
          rw [lowered_markup (hform.trans hform'), lowered_markup hform', hchildren h]
      | inline call =>
          rw [lowered_inline (hform.trans hform'), lowered_inline hform']
      | around call =>
          rw [lowered_around (hform.trans hform'), lowered_around hform',
            hchildren (hpush _ _ e.blockParams h)]
  | block b ihprogram ihinverse =>
      have hprogram : b.program.lowered source scope = b.program.lowered source' scope' :=
        Program.lowered_eq_of_body hpush ihprogram (hforms.mono nodes_subset_of_program) h
      have hinverse : b.inverse.map (Program.lowered source scope) =
          b.inverse.map (Program.lowered source' scope') := by
        cases hp : b.inverse with
        | none => rfl
        | some p =>
            exact congrArg some (Program.lowered_eq_of_body hpush (ihinverse p hp)
              (hforms.mono (nodes_subset_of_inverse hp)) h)
      rw [lowered_block, lowered_block, hprogram, hinverse]
  | mustache | text | comment | mustacheComment => rfl

theorem Program.lowered_eq_of_sameForms (p : Program) {scope scope' outer : Scope}
    (hforms : SameForms source source' related (p.nodes outer)) (h : related scope scope') :
    p.lowered source scope = p.lowered source' scope' :=
  lowered_eq_of_body hpush (fun s _ => s.lowered_eq_of_sameForms hpush) hforms h

end CurlyTemplate
