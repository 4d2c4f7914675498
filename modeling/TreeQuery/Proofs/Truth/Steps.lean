import TreeQuery.Proofs.Cursor.Items
import TreeQuery.Proofs.Eval.Focus
import TreeQuery.Proofs.Filter.Strategy
import TreeQuery.Proofs.Tree.DocumentOrder
import TreeQuery.Proofs.Typing.Delivery
/-!
# Where steps lead

Steps that do not depend on the position find the same at a node wherever the node stands, so that
what a path delivers can be told from what its steps find at single nodes: all that it delivers is
led to from an item that it starts with (`followSteps_leads`), and if nothing fails, it delivers all
that is led to (`followSteps_delivers`). Neither asks for the order in which nodes are delivered,
nor how often.
-/

namespace TreeQuery

variable {call : Caller} {env : Env}

/-- Whether a step, with an item in focus, delivers another one. -/
def Expr.Finds (call : Caller) (env : Env) (step : Expr) (x y : Item) : Prop :=
  ∃ d, (step.iterate call (env.focusAlone x)).Gives d ∧ y ∈ delivered (d.deliveries env.scoring)

/-- Whether steps lead from one item to another, if each leads where `R` says. -/
def Leads (R : Expr → Item → Item → Prop) : List Expr → Item → Item → Prop
  | [], x, y => x = y
  | s :: ss, x, y => ∃ z, R s x z ∧ Leads R ss z y

theorem leads_append {R : Expr → Item → Item → Prop} {ss' : List Expr} {y : Item} :
    (ss : List Expr) → {x : Item} →
    (Leads R (ss ++ ss') x y ↔ ∃ z, Leads R ss x z ∧ Leads R ss' z y)
  | [], x => by simp [Leads]
  | s :: ss, x => by
    simp only [List.cons_append, Leads, leads_append ss]
    constructor
    · rintro ⟨w, hw, z, hz, h⟩
      exact ⟨z, ⟨w, hw, hz⟩, h⟩
    · rintro ⟨z, ⟨w, hw, hz⟩, h⟩
      exact ⟨w, hw, z, hz, h⟩

/-- A step that does not depend on the position is evaluated alike wherever the item in focus
stands. -/
theorem Expr.iterate_focusOn (hc : call.IgnoresFocus) {step : Expr}
    (hs : step.dependsOn .position = false) (size : Option Nat) (pos : Nat) (x : Item) :
    step.iterate call (env.focusOn size env.scoring pos x) = step.iterate call (env.focusAlone x) :=
  have h : Focus.Alike (step.dependsOn ·) (env.focusAlone x).focus ⟨some x, pos, size⟩ :=
    .placed hs pos size
  Expr.iterate_withFocus hc step h

section Follow

variable {step : Expr} (hc : call.IgnoresFocus) (hs : step.dependsOn .position = false)
    {c c' : Cursor} {nodesOnly : Bool}
  (h : (c.follow env step nodesOnly fun env => step.iterate call env).Gives c')

include hc hs h

theorem Cursor.follow_finds : ∀ y ∈ delivered (c'.deliveries env.scoring),
    ∃ x ∈ delivered (c.deliveries env.scoring), step.Finds call env x y := by
  intro y hy
  simp only [follow, hs, Bool.false_eq_true, if_false, Logged.gives_pure] at h
  rw [← h, deliveries_chain] at hy
  obtain ⟨blocks, hout, hfrom, -, -⟩ :=
    Link.deliveries_blocks _ env.scoring (c.deliveries env.scoring) 0
  rw [hout, List.mem_flatten] at hy
  obtain ⟨items, hitems, hy⟩ := hy
  obtain ⟨d, hd, rfl⟩ := List.mem_map.mp hitems
  obtain ⟨pos, x, hx, hstart⟩ := hfrom d hd
  refine ⟨x, hx, d, ?_, hy⟩
  rwa [← Expr.iterate_focusOn hc hs none pos x]

theorem Cursor.follow_delivers (hclean : Clean (c'.deliveries env.scoring)) :
    Clean (c.deliveries env.scoring) ∧
    ∀ x ∈ delivered (c.deliveries env.scoring),
    ∃ d, (step.iterate call (env.focusAlone x)).Gives d ∧
      Clean (d.deliveries env.scoring) ∧
      ∀ y ∈ delivered (d.deliveries env.scoring), y ∈ delivered (c'.deliveries env.scoring) := by
  simp only [follow, hs, Bool.false_eq_true, if_false, Logged.gives_pure] at h
  subst h
  rw [deliveries_chain] at hclean ⊢
  refine ⟨Link.clean_deliveries _ 0 hclean, fun x hx => ?_⟩
  obtain ⟨pos, d, hstart, hd⟩ := Link.clean_block hclean x hx
  refine ⟨d, ?_, hd⟩
  rwa [← Expr.iterate_focusOn hc hs none pos x]

end Follow

section Steps

variable {R : Expr → Item → Item → Prop} (hc : call.IgnoresFocus)

include hc

theorem followSteps_leads : {steps : List Expr} → (∀ s ∈ steps, s.dependsOn .position = false) →
    (∀ s ∈ steps, ∀ x y, s.Finds call env x y → R s x y) → {c c' : Cursor} → {atMostOne : Bool} →
    (followSteps call env c atMostOne steps).Gives c' → ∀ y ∈ delivered (c'.deliveries env.scoring),
      ∃ x ∈ delivered (c.deliveries env.scoring), Leads R steps x y
  | [], _, _, c, c', _, h, y, hy => by
    simp only [followSteps, Logged.gives_pure] at h
    exact ⟨y, h ▸ hy, rfl⟩
  | s :: ss, hsteady, hfinds, c, c', atMostOne, h, y, hy => by
    rw [List.forall_mem_cons] at hsteady hfinds
    simp only [followSteps, Logged.gives_bind, Logged.gives_ite, Logged.gives_ofOutcome] at h
    obtain ⟨next, hnext, h⟩ := h
    have here {z : Item} (hz : z ∈ delivered (next.deliveries env.scoring)) (hy : Leads R ss z y) :
        ∃ x ∈ delivered (c.deliveries env.scoring), Leads R (s :: ss) x y := by
      obtain ⟨x, hx, hfound⟩ := Cursor.follow_finds hc hsteady.1 hnext z hz
      exact ⟨x, hx, z, hfinds.1 x z hfound, hy⟩
    rcases h with ⟨-, h⟩ | ⟨-, items, hitems, ordered, hordered, h⟩
    · obtain ⟨z, hz, hled⟩ := followSteps_leads hsteady.2 hfinds.2 h y hy
      exact here hz hled
    · obtain ⟨z, hz, hled⟩ := followSteps_leads hsteady.2 hfinds.2 h y hy
      rw [Cursor.delivered_ofList, mem_documentOrder hordered] at hz
      rw [← (Cursor.drain_delivered hitems).1] at hz
      exact here hz hled

/-- If nothing fails, steps deliver all that is led to, where each leads to no more than it
delivers. -/
theorem followSteps_delivers : {steps : List Expr} → (∀ s ∈ steps, s.dependsOn .position = false) →
    (∀ s ∈ steps, ∀ x d, (s.iterate call (env.focusAlone x)).Gives d →
      Clean (d.deliveries env.scoring) →
      ∀ y, R s x y → y ∈ delivered (d.deliveries env.scoring)) →
    {c c' : Cursor} → {atMostOne : Bool} →
    (followSteps call env c atMostOne steps).Gives c' → Clean (c'.deliveries env.scoring) →
      Clean (c.deliveries env.scoring) ∧ ∀ x ∈ delivered (c.deliveries env.scoring),
      ∀ y, Leads R steps x y →
        y ∈ delivered (c'.deliveries env.scoring)
  | [], _, _, c, c', _, h, hclean => by
    simp only [followSteps, Logged.gives_pure] at h
    subst h
    exact ⟨hclean, fun x hx y hy => hy ▸ hx⟩
  | s :: ss, hsteady, hR, c, c', atMostOne, h, hclean => by
    rw [List.forall_mem_cons] at hsteady hR
    simp only [followSteps, Logged.gives_bind, Logged.gives_ite, Logged.gives_ofOutcome] at h
    obtain ⟨next, hnext, h⟩ := h
    have here (hnextClean : Clean (next.deliveries env.scoring))
      (hall : ∀ z ∈ delivered (next.deliveries env.scoring),
        ∀ y, Leads R ss z y → y ∈ delivered (c'.deliveries env.scoring)) :
          Clean (c.deliveries env.scoring) ∧
        ∀ x ∈ delivered (c.deliveries env.scoring), ∀ y, Leads R (s :: ss) x y →
          y ∈ delivered (c'.deliveries env.scoring) := by
      obtain ⟨hcClean, hfound⟩ := Cursor.follow_delivers hc hsteady.1 hnext hnextClean
      refine ⟨hcClean, fun x hx y hy => ?_⟩
      obtain ⟨z, hz, hled⟩ := hy
      obtain ⟨d, hd, hdClean, hdnext⟩ := hfound x hx
      exact hall z (hdnext z (hR.1 x d hd hdClean z hz)) y hled
    rcases h with ⟨-, h⟩ | ⟨-, items, hitems, ordered, hordered, h⟩
    · obtain ⟨hnextClean, hall⟩ := followSteps_delivers hsteady.2 hR.2 h hclean
      exact here hnextClean hall
    · obtain ⟨-, hall⟩ := followSteps_delivers hsteady.2 hR.2 h hclean
      obtain ⟨hitems, hnextClean, -⟩ := Cursor.drain_delivered hitems
      refine here hnextClean fun z hz => hall z ?_
      rw [Cursor.delivered_ofList, mem_documentOrder hordered, ← hitems]
      exact hz

end Steps

end TreeQuery
