import TreeQuery.Proofs.Eval.Location
import TreeQuery.Proofs.Truth.Relative
import TreeQuery.Proofs.Typing.Filters
/-!
# Expressions that leave the brackets

Outside of its brackets a predicate speaks of all items of the root at once: in the place of the
item in focus there is a path or a map from the root. It delivers what some relation makes of these
items, which in the brackets is what the operand delivers for one of them (`Expr.Extends`,
`Expr.Relates`; for the rules `extendRoot_extends` and `optimizeMap_extends`). Paths begin at a
single item in the brackets and at many outside, so that no step that is lifted may ask for its
position (`Expr.Steady`).
-/

namespace TreeQuery

section

variable {call : Caller} {env : Env} {scope : Scope}

/-- Whether an expression delivers what a relation makes of the items with a property; all of it, if
nothing fails. -/
structure Expr.Extends (call : Caller) (env : Env) (e : Expr) (From : Item → Prop)
    (R : Item → Item → Prop) : Prop where
  sound : ∀ d, (e.iterate call env).Gives d → ∀ y ∈ delivered (d.deliveries env.scoring),
    ∃ x, From x ∧ R x y
  complete : ∀ d, (e.iterate call env).Gives d → Clean (d.deliveries env.scoring) →
    ∀ x, From x → ∀ y, R x y → y ∈ delivered (d.deliveries env.scoring)

/-- Whether an expression delivers the items with a property, and its static type is not empty if
there are such. -/
structure Expr.Keeps (call : Caller) (env : Env) (e : Expr) (From : Item → Prop) :
    Prop extends e.Extends call env From Eq where
  nonzero : ∀ x, From x → e.type.isZero = false

/-- Whether an expression delivers what a relation makes of the item in focus. -/
def Expr.Relates (call : Caller) (env : Env) (e : Expr) (R : Item → Item → Prop) : Prop :=
  ∀ x d, (e.iterate call (env.focusAlone x)).Gives d →
    (∀ y ∈ delivered (d.deliveries env.scoring), R x y) ∧
    (Clean (d.deliveries env.scoring) → ∀ y, R x y → y ∈ delivered (d.deliveries env.scoring))

/-- Whether no step of a relative path asks for its position. -/
def Expr.Steady (scope : Scope) (e : Expr) : Prop :=
  ∀ steps, relativeSteps? e = some steps →
    ∀ s ∈ flattenSteps scope steps, s.dependsOn .position = false

/-! ### The operand in the brackets -/

theorem Expr.relates_finds (e : Expr) : e.Relates call env (e.Finds call env) := by
  refine fun x d hd => ⟨fun y hy => ⟨d, hd, hy⟩, fun _ y h => ?_⟩
  obtain ⟨d', hd', hy⟩ := h
  exact hd.unique hd' ▸ hy

theorem Expr.relates_contextItem {e : Expr} (he : e.isContextItem = true) :
    e.Relates call env Eq := by
  obtain ⟨form, type, l⟩ := e
  cases form <;> simp [isContextItem] at he
  intro x d hd
  simp only [iterate, Form.iterate, Logged.gives_locate, Logged.gives_map] at hd
  obtain ⟨item, hitem, rfl⟩ := hd
  obtain rfl : x = item := Logged.gives_pure.mp hitem
  simp [Cursor.single, eq_comm]

theorem Expr.relates_relative (hc : call.IgnoresFocus) {e : Expr} {steps : List Expr}
    (he : relativeSteps? e = some steps)
    (hsteady : ∀ s ∈ flattenSteps scope steps, s.dependsOn .position = false) :
    e.Relates call env (LeadsFlat call env scope steps) :=
  fun _ _ hd => ⟨relativeSteps?_leads hc he hsteady hd, relativeSteps?_delivers hc he hsteady hd⟩

/-! ### The root in front of it -/

variable {From : Item → Prop} {R : Item → Item → Prop} {head e : Expr} {l : Option Location}
    {τ : StaticType}

theorem Expr.Extends.at? (hplace : call.IgnoresPlace) (h : e.Extends call env From R) :
    (e.at? l).Extends call env From R where
  sound d hd y hy := by
    obtain ⟨c, hc, hresembles⟩ := Expr.iterate_at? hplace hd
    exact h.sound c hc y (hresembles.delivered ▸ hy)
  complete d hd hclean x hx y hR := by
    obtain ⟨c, hc, hresembles⟩ := Expr.iterate_at? hplace hd
    exact hresembles.delivered ▸ h.complete c hc (hresembles.clean.mp hclean) x hx y hR

theorem Expr.extends_empty (hnone : ∀ x, From x → ∀ y, ¬R x y) :
    (Expr.empty.at? l).Extends call env From R where
  sound d hd y hy := by
    obtain rfl : Cursor.ofList [] = d := by
      simpa [Expr.empty, Expr.literal, Expr.of, Expr.at?, iterate, Form.iterate] using hd
    simp at hy
  complete _ _ _ x hx y hR := absurd hR (hnone x hx y)

section

variable (hc : call.IgnoresFocus) (hhead : head.Extends call env From Eq)

include hc hhead

theorem Expr.Extends.path {steps : List Expr}
    (hsteady : ∀ s ∈ steps, s.dependsOn .position = false) :
    Expr.Extends call env ⟨.path head steps, τ, l⟩ From (Leads (Expr.Finds call env) steps) := by
  have follow {d : Cursor} (hd : (Expr.iterate call env ⟨.path head steps, τ, l⟩).Gives d) :
      ∃ c, (head.iterate call env).Gives c ∧
        (followSteps call env c head.type.atMostOne steps).Gives d := by
    simpa only [iterate, Form.iterate, Logged.gives_locate, Logged.gives_bind] using hd
  refine ⟨fun d hd y hy => ?_, fun d hd hclean x hx y hled => ?_⟩
  · obtain ⟨c, hgives, hd⟩ := follow hd
    obtain ⟨z, hz, hled⟩ := followSteps_leads hc hsteady (fun s _ x y h => h) hd y hy
    obtain ⟨x, hx, rfl⟩ := hhead.sound c hgives z hz
    exact ⟨x, hx, hled⟩
  · obtain ⟨c, hgives, hd⟩ := follow hd
    obtain ⟨hcClean, hall⟩ := followSteps_delivers hc hsteady
      (fun s _ x d hd hclean => (s.relates_finds x d hd).2 hclean) hd hclean
    exact hall x (hhead.complete c hgives hcClean x hx x rfl) y hled

theorem Expr.Extends.map {operand : Expr} (hsteady : operand.dependsOn .position = false) :
    Expr.Extends call env ⟨.map [head, operand], τ, l⟩ From (operand.Finds call env) := by
  have follow {d : Cursor} (hd : (Expr.iterate call env ⟨.map [head, operand], τ, l⟩).Gives d) :
      ∃ c, (head.iterate call env).Gives c ∧
        (c.follow env operand false fun env => operand.iterate call env).Gives d := by
    simp only [iterate, Form.iterate, followMaps, Logged.gives_locate, Logged.gives_bind,
      Logged.gives_pure] at hd
    obtain ⟨c, hgives, d', hd', rfl⟩ := hd
    exact ⟨c, hgives, hd'⟩
  refine ⟨fun d hd y hy => ?_, fun d hd hclean x hx y hfound => ?_⟩
  · obtain ⟨c, hgives, hd⟩ := follow hd
    obtain ⟨z, hz, hfound⟩ := Cursor.follow_finds hc hsteady hd y hy
    obtain ⟨x, hx, rfl⟩ := hhead.sound c hgives z hz
    exact ⟨x, hx, hfound⟩
  · obtain ⟨c, hgives, hd⟩ := follow hd
    obtain ⟨hcClean, hall⟩ := Cursor.follow_delivers hc hsteady hd hclean
    obtain ⟨d', hd', hdClean, hnext⟩ := hall x (hhead.complete c hgives hcClean x hx x rfl)
    exact hnext y ((operand.relates_finds x d' hd').2 hdClean y hfound)

end

/-- An operand behind a lone context item needs no map: it finds there what it finds in the focus as
it is. -/
theorem Expr.extends_finds (hc : call.IgnoresFocus) {item : Item}
    (hitem : env.focus.item = some item) (hfrom : ∀ x, From x ↔ x = item)
    (hsteady : e.dependsOn .position = false) : e.Extends call env From (e.Finds call env) := by
  have halike : Focus.Alike (e.dependsOn ·) env.focus ⟨some item, 0, none⟩ :=
    ⟨fun _ => hitem, fun h => absurd h (by simp [hsteady])⟩
  have hsame : e.iterate call (env.focusAlone item) = e.iterate call env :=
    Expr.iterate_withFocus hc e halike
  refine ⟨fun d hd y hy => ?_, fun d hd hclean x hx y hfound => ?_⟩
  · exact ⟨item, (hfrom item).mpr rfl, d, hsame ▸ hd, hy⟩
  · obtain rfl := (hfrom x).mp hx
    obtain ⟨d', hd', hy⟩ := hfound
    rw [hsame] at hd'
    exact hd.unique hd' ▸ hy

theorem Expr.Extends.of_contextItem (hhead : head.Extends call env From Eq)
    (he : head.isContextItem = true) {item : Item} (hitem : env.focus.item = some item) (x : Item) :
    From x ↔ x = item := by
  obtain ⟨form, type, place⟩ := head
  cases form <;> simp [isContextItem] at he
  have hgives : (Expr.iterate call env ⟨.contextItem, type, place⟩).Gives (.single item) := by
    simp [iterate, Form.iterate, Env.contextItem, hitem]
  constructor
  · intro hx
    simpa [Cursor.single] using hhead.complete _ hgives (by simp [Cursor.single]) x hx x rfl
  · rintro rfl
    obtain ⟨x', hx', rfl⟩ := hhead.sound _ hgives x (by simp [Cursor.single])
    exact hx'

/-! ### Empty chains -/

theorem Occurrence.multiply_ne_zero {a b : Occurrence} (ha : a ≠ .zero) (hb : b ≠ .zero) :
    a.multiply b ≠ .zero := by
  cases a <;> cases b <;> first | contradiction | decide

theorem chainOccurrence_ne_zero : {es : List Expr} → {start : Occurrence} → start ≠ .zero →
    (∀ e ∈ es, e.type.isZero = false) → chainOccurrence start es ≠ .zero
  | [], _, hstart, _ => hstart
  | e :: es, start, hstart, hes => by
    obtain ⟨he, hes⟩ := List.forall_mem_cons.mp hes
    have he : e.type.occurrence ≠ .zero := by simpa [StaticType.isZero] using he
    change chainOccurrence (start.multiply e.type.occurrence) es ≠ .zero
    exact chainOccurrence_ne_zero (Occurrence.multiply_ne_zero hstart he) hes

/-! ### The rules -/

section Rules

variable {opt : Optimizer} {Γ : List Variable} {K L : Knowledge} {root : Expr}
    {predicates : List Expr}
  (hc : call.IgnoresFocus) (hplace : call.IgnoresPlace) (hcall : call.Sound) (henv : env.Fits Γ K)
  (hfrom : ∀ x, From x → L.Holds env.forest x ∧ x.Good)

include hc hplace hcall henv hfrom

theorem optimizePath_extends {steps : List Expr}
    (h : (optimizePath scope (some head) steps l).Gives e) (hhead : head.Keeps call env From)
    (hsteps : AnnotatedChain Γ L steps)
    (hsteady : ∀ s ∈ flattenSteps scope steps, s.dependsOn .position = false) :
    e.Extends call env From (LeadsFlat call env scope steps) ∧
      ∀ x, From x → ∀ y, LeadsFlat call env scope steps x y → e.type.isZero = false := by
  have hflat : AnnotatedChain Γ L (flattenSteps scope steps) := annotatedChain_flattenSteps hsteps
  have hnonzero {x y : Item} (hx : From x) (hled : LeadsFlat call env scope steps x y) :
      head.type.isZero = false ∧ ∀ s ∈ flattenSteps scope steps, s.type.isZero = false :=
    ⟨hhead.nonzero x hx, Leads.not_zero hcall henv hflat (hfrom x hx) hled⟩
  obtain ⟨hnil, rfl⟩ | ⟨-, rfl⟩ | ⟨⟨hempty, -⟩, place, rfl⟩ := optimizePath_some_cases h
  · unfold LeadsFlat
    rw [hnil]
    exact ⟨hhead.toExtends.at? hplace, fun x hx _ _ => hhead.nonzero x hx⟩
  · refine ⟨hhead.toExtends.path hc hsteady, fun x hx y hled => ?_⟩
    obtain ⟨hzero, hsteps⟩ := hnonzero hx hled
    simpa [StaticType.isZero, StaticType.of] using
      chainOccurrence_ne_zero (by simpa [StaticType.isZero] using hzero) hsteps
  · have hnone (x : Item) (hx : From x) (y : Item)
        (hled : LeadsFlat call env scope steps x y) : False := by
      obtain ⟨hzero, hsteps⟩ := hnonzero hx hled
      rw [hzero, Bool.false_or, List.any_eq_true] at hempty
      obtain ⟨s, hs, hzero⟩ := hempty
      exact Bool.false_ne_true ((hsteps s hs).symm.trans hzero)
    exact ⟨Expr.extends_empty hnone, fun x hx y hled => (hnone x hx y hled).elim⟩

/-- What takes the place of an operand, and what the operand delivers in the brackets. -/
theorem extendRoot_extends {operand : Expr}
    (h : (extendRoot opt scope root predicates operand).Gives (some e))
    (hrest : ∀ head, (remainingRoot opt scope root predicates).Gives head →
      head.Keeps call env From) (hoperand : operand.Annotated Γ L)
    (hsteady : operand.Steady scope) :
    ∃ R, operand.Relates call env R ∧ e.Extends call env From R ∧ ∀ x, From x → ∀ y, R x y →
    e.type.isZero = false := by
  obtain ⟨head, hhead, ⟨hitem, rfl⟩ | ⟨steps, hsteps, hpath⟩⟩ := extendRoot_cases h
  · exact ⟨Eq, Expr.relates_contextItem hitem, (hrest e hhead).toExtends,
      fun x hx _ _ => (hrest e hhead).nonzero x hx⟩
  · exact ⟨_, Expr.relates_relative hc hsteps (hsteady steps hsteps),
      optimizePath_extends hc hplace hcall henv hfrom hpath (hrest head hhead)
        (relativeSteps?_annotated hsteps hoperand) (hsteady steps hsteps)⟩

theorem optimizeMap_extends {last : Expr} (h : (optimizeMap scope [head, last] l).Gives e)
    (hhead : head.Keeps call env From)
    (hitem : head.isContextItem = true → ∃ item, env.focus.item = some item)
    (hlast : last.Annotated Γ L) (hsteady : last.dependsOn .position = false) :
    e.Extends call env From (last.Finds call env) := by
  have hchain : AnnotatedChain Γ L [last] := by simpa only [AnnotatedChain, and_true] using hlast
  have hnone (hempty : head.type.isZero = true ∨ last.type.isZero = true) (x : Item)
    (hx : From x) (y : Item)
      (hfound : last.Finds call env x y) : False := by
    have hzero := Leads.not_zero hcall henv hchain (hfrom x hx) ⟨y, hfound, rfl⟩ last
      (List.mem_singleton_self last)
    simp [hhead.nonzero x hx, hzero] at hempty
  obtain ⟨kept, hkept, h⟩ := optimizeMap_cases h
  -- the operands are kept, or the context item in front of the predicate is left out
  have hkept : kept = [head, last] ∨ scope.optimize = true ∧ head.isContextItem = true ∧
      kept = [last] := by
    obtain rfl | ⟨hoptimize, hdrop⟩ := hkept
    · exact .inl rfl
    · obtain ⟨hfirst, -, hdrop⟩ | rfl := dropContextItems_cons hdrop
      · exact .inr ⟨hoptimize, hfirst, (Logged.gives_pure.mp hdrop).symm⟩
      · exact .inl rfl
  obtain rfl | ⟨hoptimize, hfirst, rfl⟩ := hkept
  · obtain ⟨operand, hone, -⟩ | ⟨-, rfl⟩ | ⟨⟨hempty, -⟩, place, rfl⟩ := h
    · cases hone
    · exact hhead.toExtends.map hc hsteady
    · exact Expr.extends_empty (hnone (by simpa using hempty))
  · obtain ⟨operand, hone, rfl⟩ | ⟨hmany, -⟩ | ⟨⟨hempty, -⟩, place, rfl⟩ := h
    · obtain rfl : last = operand := List.singleton_inj.mp hone
      obtain ⟨item, hfocus⟩ := hitem hfirst
      have hlone := hhead.toExtends.of_contextItem hfirst hfocus
      exact (Expr.extends_finds hc hfocus hlone hsteady).at? hplace
    · exact absurd rfl (hmany hoptimize)
    · exact Expr.extends_empty (hnone (.inr (by simpa using hempty)))

end Rules

end

end TreeQuery
