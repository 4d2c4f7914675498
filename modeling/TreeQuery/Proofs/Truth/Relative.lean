import TreeQuery.Proofs.Compile.Cases
import TreeQuery.Proofs.Truth.Steps
import TreeQuery.Proofs.Typing.Evaluation
/-!
# Paths from the item in focus

What a path from the item in focus delivers is what its steps lead to, those of nested paths written
out in their places (`relativeSteps?_leads`, `relativeSteps?_delivers`). No step depends on its
position then, in the path and in those nested in it. A step whose static type says that it is empty
leads nowhere (`Leads.not_zero`).
-/

namespace TreeQuery

variable {call : Caller} {env : Env} {scope : Scope}

/-- Where the steps of a path lead, nested paths written out. -/
abbrev LeadsFlat (call : Caller) (env : Env) (scope : Scope) (steps : List Expr) :
    Item → Item → Prop :=
  Leads (Expr.Finds call env) (flattenSteps scope steps)

theorem leads_flattenSteps {y : Item} : (steps : List Expr) → {x : Item} →
    (LeadsFlat call env scope steps x y ↔ Leads (fun s => LeadsFlat call env scope [s]) steps x y)
  | [], x => Iff.rfl
  | s :: ss, x => by
    rw [LeadsFlat, flattenSteps_cons, leads_append, Leads]
    simp only [leads_flattenSteps ss]

theorem steady_of_flattenSteps {steps : List Expr}
    (h : ∀ s ∈ flattenSteps scope steps, s.dependsOn .position = false) :
    ∀ s ∈ steps, s.dependsOn .position = false ∧
    ∀ t ∈ flattenSteps scope [s], t.dependsOn .position = false := by
  induction steps with
  | nil => simp
  | cons first rest ih =>
    rw [flattenSteps_cons, List.forall_mem_append] at h
    rw [List.forall_mem_cons]
    refine ⟨⟨?_, h.1⟩, ih h.2⟩
    rcases flattenSteps_single scope first with heq | ⟨inner, type, l, rfl, -⟩
    · exact h.1 first (by rw [heq]; exact List.mem_singleton_self first)
    · simp [Expr.dependsOn, Form.dependsOn]

theorem followSteps_focusAlone (x : Item) (c : Cursor) (atMostOne : Bool) (steps : List Expr) :
    followSteps call (env.focusAlone x) c atMostOne steps =
    followSteps call env c atMostOne steps :=
  followSteps_withFocus call env ⟨some x, 0, none⟩ steps c atMostOne

/-- The evaluation of a relative path is that of its steps, from the item in focus alone. -/
theorem Expr.iterate_relativePath {inner : List Expr} {type : StaticType} {l : Option Location}
    {x : Item} {d : Cursor}
    (h : (Expr.iterate call (env.focusAlone x) ⟨.relativePath inner, type, l⟩).Gives d) :
    (followSteps call env (.single x) true inner).Gives d := by
  simp only [iterate, Form.iterate, Logged.gives_locate, Logged.gives_bind] at h
  obtain ⟨item, hitem, h⟩ := h
  obtain rfl : x = item := Logged.gives_pure.mp hitem
  rwa [followSteps_focusAlone] at h

section

variable (hc : call.IgnoresFocus)

include hc

theorem Expr.Finds.leads {s : Expr} {x y : Item}
    (hs : ∀ t ∈ flattenSteps scope [s], t.dependsOn .position = false) (h : s.Finds call env x y) :
    LeadsFlat call env scope [s] x y := by
  obtain ⟨d, hd, hy⟩ := h
  rcases flattenSteps_single scope s with heq | ⟨inner, type, l, rfl, heq⟩
  · rw [LeadsFlat, heq]
    exact ⟨y, ⟨d, hd, hy⟩, rfl⟩
  · rw [heq] at hs
    rw [LeadsFlat, heq]
    obtain ⟨z, hz, hled⟩ := followSteps_leads hc hs (fun s _ x y h => h)
      (Expr.iterate_relativePath hd) y hy
    obtain rfl : z = x := by simpa [Cursor.single] using hz
    exact hled

theorem Expr.delivers_of_leads {s : Expr} {x y : Item} {d : Cursor}
    (hs : ∀ t ∈ flattenSteps scope [s], t.dependsOn .position = false)
    (hd : (s.iterate call (env.focusAlone x)).Gives d) (hclean : Clean (d.deliveries env.scoring))
    (h : LeadsFlat call env scope [s] x y) : y ∈ delivered (d.deliveries env.scoring) := by
  have found {s : Expr} {x y : Item} {d : Cursor} (hd : (s.iterate call (env.focusAlone x)).Gives d)
      (h : s.Finds call env x y) : y ∈ delivered (d.deliveries env.scoring) := by
    obtain ⟨d', hd', hy⟩ := h
    exact hd.unique hd' ▸ hy
  rcases flattenSteps_single scope s with heq | ⟨inner, type, l, rfl, heq⟩
  · rw [LeadsFlat, heq] at h
    obtain ⟨z, hz, rfl⟩ := h
    exact found hd hz
  · rw [heq] at hs
    rw [LeadsFlat, heq] at h
    obtain ⟨-, hall⟩ := followSteps_delivers hc hs (fun s _ x d hd _ y h => found hd h)
      (Expr.iterate_relativePath hd) hclean
    exact hall x (by simp [Cursor.single]) y h

section Path

variable {steps : List Expr}
    (hsteady : ∀ s ∈ flattenSteps scope steps, s.dependsOn .position = false) {c c' : Cursor}
  {atMostOne : Bool} (h : (followSteps call env c atMostOne steps).Gives c')

include hsteady h

theorem followSteps_leadsFlat : ∀ y ∈ delivered (c'.deliveries env.scoring),
    ∃ x ∈ delivered (c.deliveries env.scoring), LeadsFlat call env scope steps x y := by
  have hsteps := steady_of_flattenSteps hsteady
  intro y hy
  obtain ⟨x, hx, hled⟩ := followSteps_leads hc (fun s hs => (hsteps s hs).1)
    (fun s hs x y h => h.leads hc (hsteps s hs).2) h y hy
  exact ⟨x, hx, (leads_flattenSteps steps).mpr hled⟩

theorem followSteps_deliversFlat (hclean : Clean (c'.deliveries env.scoring)) :
    Clean (c.deliveries env.scoring) ∧
    ∀ x ∈ delivered (c.deliveries env.scoring), ∀ y, LeadsFlat call env scope steps x y →
      y ∈ delivered (c'.deliveries env.scoring) := by
  have hsteps := steady_of_flattenSteps hsteady
  simp only [leads_flattenSteps steps]
  exact followSteps_delivers hc (fun s hs => (hsteps s hs).1)
    (fun s hs x d hd hclean y => Expr.delivers_of_leads hc (hsteps s hs).2 hd hclean) h hclean

end Path

section Relative

variable {e : Expr} {steps : List Expr} (he : relativeSteps? e = some steps)
  (hsteady : ∀ s ∈ flattenSteps scope steps, s.dependsOn .position = false) {x : Item} {d : Cursor}
  (hd : (e.iterate call (env.focusAlone x)).Gives d)

include he hd

omit hc in
/-- An expression relative to the item in focus follows its steps from there, or is the only
step. -/
theorem relativeSteps?_follow (scope : Scope) : (steps = [e] ∧ flattenSteps scope [e] = [e]) ∨
    ∃ atMostOne, (followSteps call env (.single x) atMostOne steps).Gives d := by
  obtain ⟨form, type, l⟩ := e
  obtain ⟨hstep, rfl⟩ | hform | ⟨first, hform, hfirst⟩ := relativeSteps?_cases he
  · cases form <;> simp [Expr.isStep] at hstep
    exact .inl ⟨rfl, by simp [flattenSteps]⟩
  · subst hform
    exact .inr ⟨true, Expr.iterate_relativePath hd⟩
  · subst hform
    obtain ⟨form, τ, place⟩ := first
    cases form <;> simp [Expr.isContextItem] at hfirst
    simp only [Expr.iterate, Form.iterate, Logged.gives_locate, Logged.gives_bind,
      Logged.gives_map] at hd
    obtain ⟨_, ⟨item, hitem, rfl⟩, hd⟩ := hd
    obtain rfl : x = item := Logged.gives_pure.mp hitem
    rw [followSteps_focusAlone] at hd
    exact .inr ⟨_, hd⟩

include hsteady

theorem relativeSteps?_leads :
    ∀ y ∈ delivered (d.deliveries env.scoring), LeadsFlat call env scope steps x y := by
  intro y hy
  rcases relativeSteps?_follow he hd scope with ⟨rfl, heq⟩ | ⟨atMostOne, hd⟩
  · exact Expr.Finds.leads hc hsteady ⟨d, hd, hy⟩
  · obtain ⟨z, hz, hled⟩ := followSteps_leadsFlat hc hsteady hd y hy
    obtain rfl : z = x := by simpa [Cursor.single] using hz
    exact hled

theorem relativeSteps?_delivers (hclean : Clean (d.deliveries env.scoring)) :
    ∀ y, LeadsFlat call env scope steps x y → y ∈ delivered (d.deliveries env.scoring) := by
  intro y hy
  rcases relativeSteps?_follow he hd scope with ⟨rfl, heq⟩ | ⟨atMostOne, hd⟩
  · exact Expr.delivers_of_leads hc hsteady hd hclean hy
  · exact (followSteps_deliversFlat hc hsteady hd hclean).2 x (by simp [Cursor.single]) y hy

end Relative

end

/-! ### Empty steps -/

theorem Leads.not_zero (hcall : call.Sound) {Γ : List Variable} {K : Knowledge}
    (henv : env.Fits Γ K) : {steps : List Expr} → {L : Knowledge} → AnnotatedChain Γ L steps →
    {x y : Item} → L.Holds env.forest x ∧ x.Good →
    Leads (Expr.Finds call env) steps x y → ∀ s ∈ steps, s.type.isZero = false
  | [], _, _, _, _, _, _ => by simp
  | s :: ss, L, he, x, y, hx, h => by
    rw [AnnotatedChain] at he
    obtain ⟨z, ⟨d, hd, hz⟩, hled⟩ := h
    have hfits (τ : StaticType) (hτ : s.Infers L τ) : d.OfType env.forest τ :=
      Expr.iterate_fits hcall (henv.focusOn hx) he.1 hd τ hτ
    rw [List.forall_mem_cons]
    refine ⟨(hfits s.type he.1.infers env.scoring).isZero_eq_false hz, ?_⟩
    exact Leads.not_zero hcall henv he.2 (he.1.supplies hfits env.scoring z hz) hled

end TreeQuery
