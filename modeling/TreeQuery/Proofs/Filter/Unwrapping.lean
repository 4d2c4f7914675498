import TreeQuery.Proofs.Filter.Hosts
import TreeQuery.Proofs.Filter.Verdict
import TreeQuery.Proofs.Rewriting.Path
/-!
# Predicates that begin with the item in focus

A map or a path may begin with an operand that gives just the item in focus. Without it the
predicate has the same verdicts: the next operand, unless it asks for its position, is evaluated in
a focus on the same item.
-/

namespace TreeQuery

open Logged (Alike)

variable {call : Caller} {env : Env} {e e' : Expr} {b : Bool}

/-! ### Cursors that deliver the same items -/

theorem toOption_of_delivered_nil : (ds : List Delivery) → delivered ds = [] →
    (ds.map fun x => x.1.toOption) = List.replicate ds.length none
  | [], _ => rfl
  | (.error _, _) :: ds, h => congrArg (none :: ·) (toOption_of_delivered_nil ds h)

theorem Link.deliveries_failures (link : Link) (scoring : Bool) {n : Nat} : (ds : List Delivery) →
    {fs : List Delivery} → {pos : Nat} → (fs.map fun x => x.1.toOption) = List.replicate n none →
    ((link.deliveries scoring pos (ds ++ fs)).map fun x => x.1.toOption) =
      ((link.deliveries scoring pos ds).map fun x => x.1.toOption) ++ List.replicate n none
  | [], fs, pos, h => by
    induction fs generalizing n with
    | nil => simpa [deliveries] using h
    | cons d fs ih =>
      obtain ⟨n, rfl⟩ : ∃ m, n = m + 1 := Nat.exists_eq_succ_of_ne_zero (by rintro rfl; cases h)
      rw [List.map_cons, List.replicate_succ, List.cons.injEq] at h
      obtain ⟨_ | x, score⟩ := d
      · simpa [deliveries, Except.toOption, List.replicate_succ] using ih h.2
      · cases h.1
  | (.error e, score) :: ds, fs, pos, h => by
    simp [deliveries, link.deliveries_failures scoring ds h]
  | (.ok item, score) :: ds, fs, pos, h => by
    rw [List.cons_append, deliveries, deliveries]
    cases link.accept item <;> simp [link.deliveries_failures scoring ds h]

namespace Cursor

def BeginsWithFailure (scoring : Bool) (c : Cursor) : Prop :=
  ∃ f score ds, c.deliveries scoring = (.error f, score) :: ds

/-- Whether a cursor delivers the items of another one, with failures at the same places, and then
only failures, unless it begins with a failure. -/
def Overruns (scoring : Bool) (c d : Cursor) : Prop :=
  c.BeginsWithFailure scoring ∨ ∃ n, ((c.deliveries scoring).map fun x => x.1.toOption) =
    ((d.deliveries scoring).map fun x => x.1.toOption) ++ List.replicate n none

variable {scoring : Bool} {c d : Cursor}

theorem BeginsWithFailure.drain (h : c.BeginsWithFailure scoring) {items : List Item} :
    ¬(c.drain scoring).Gives items := by
  obtain ⟨f, score, ds, hds⟩ := h
  rw [drain_iff_clean, hds]
  simp

theorem BeginsWithFailure.chain (h : c.BeginsWithFailure scoring) (link : Link) :
    (c.chain link 0).BeginsWithFailure scoring := by
  obtain ⟨f, score, ds, hds⟩ := h
  exact ⟨f, none, _, by rw [deliveries_chain, hds, Link.deliveries]⟩

theorem BeginsWithFailure.follow {nodesOnly : Bool} {iterate : Env → Run Cursor}
    (h : c.BeginsWithFailure env.scoring) (hd : (c.follow env e nodesOnly iterate).Gives d) :
    d.BeginsWithFailure env.scoring := by
  cases hsteady : e.dependsOn .position with
  | true =>
    simp only [Cursor.follow, hsteady, if_true] at hd
    obtain ⟨items, hitems, -⟩ := Logged.gives_bind.mp hd
    exact absurd hitems h.drain
  | false =>
    simp only [Cursor.follow, hsteady, Bool.false_eq_true, if_false] at hd
    exact Logged.gives_pure.mp hd ▸ h.chain _

theorem BeginsWithFailure.not_decidesAt {position : Nat} (h : c.BeginsWithFailure scoring) :
    ¬DecidesAt position (c.deliveries scoring) b := by
  obtain ⟨f, score, ds, hds⟩ := h
  rw [hds]
  rintro ⟨⟩

theorem overruns_of_eq (h : ((c.deliveries scoring).map fun x => x.1.toOption) =
    (d.deliveries scoring).map fun x => x.1.toOption) : c.Overruns scoring d :=
  .inr ⟨0, by rw [h, List.replicate_zero, List.append_nil]⟩

theorem Overruns.refl (c : Cursor) : c.Overruns scoring c := overruns_of_eq rfl

theorem overruns_single {item : Item} (h : delivered (c.deliveries scoring) = [item]) :
    c.Overruns scoring (.single item) := by
  cases hds : c.deliveries scoring with
  | nil => simp [hds] at h
  | cons first ds =>
    obtain ⟨f | x, score⟩ := first
    · exact .inl ⟨f, score, ds, hds⟩
    · rw [hds, delivered_ok, List.cons.injEq] at h
      obtain ⟨rfl, h⟩ := h
      refine .inr ⟨ds.length, ?_⟩
      rw [hds, deliveries_single, List.map_cons, toOption_of_delivered_nil ds h]
      rfl

theorem BeginsWithFailure.of_overruns (h : d.BeginsWithFailure scoring)
    (hc : c.Overruns scoring d) : c.BeginsWithFailure scoring := by
  obtain ⟨f, score, ds, hds⟩ := h
  obtain hfails | ⟨n, hc⟩ := hc
  · exact hfails
  rw [hds, List.map_cons, List.cons_append, List.map_eq_cons_iff] at hc
  obtain ⟨⟨_ | x, score'⟩, ds', hc, hfirst, -⟩ := hc
  · exact ⟨_, _, _, hc⟩
  · cases hfirst

theorem Overruns.trans {c' : Cursor} (h : c.Overruns scoring d) (h' : d.Overruns scoring c') :
    c.Overruns scoring c' := by
  obtain hfails | ⟨m, hm⟩ := h'
  · exact .inl (hfails.of_overruns h)
  obtain hfails | ⟨n, hn⟩ := h
  · exact .inl hfails
  · exact .inr ⟨m + n, by rw [hn, hm, List.append_assoc, List.replicate_append_replicate]⟩

theorem Overruns.drain (h : c.Overruns scoring d) {items : List Item}
    (hc : (c.drain scoring).Gives items) : (d.drain scoring).Gives items := by
  obtain hfails | ⟨n, h⟩ := h
  · exact absurd hc hfails.drain
  simp only [drain_iff_clean, ← and_assoc, ← toOption_eq_some_iff] at hc ⊢
  refine ⟨?_, hc.2⟩
  -- among items there is no failure
  obtain rfl : n = 0 := by
    by_contra hn
    have hmem : none ∈ items.map some := by
      rw [← hc.1, h]
      exact List.mem_append_right _ (List.mem_replicate.mpr ⟨hn, rfl⟩)
    simp at hmem
  rw [← hc.1, h, List.replicate_zero, List.append_nil]

theorem Overruns.chain (h : c.Overruns scoring d) (link : Link) :
    (c.chain link 0).Overruns scoring (d.chain link 0) := by
  obtain hfails | ⟨n, h⟩ := h
  · exact .inl (hfails.chain link)
  obtain ⟨ds, fs, hc, hds, hfs⟩ := List.map_eq_append_iff.mp h
  have hlink : link.Resembles link := ⟨fun _ => rfl, fun _ _ _ => Alike.refl (fun _ _ => rfl) _⟩
  have hsame := congrArg (List.map Prod.fst) (hlink.deliveries scoring _ hds 0)
  refine .inr ⟨n, ?_⟩
  rw [deliveries_chain, deliveries_chain, hc, link.deliveries_failures scoring ds hfs]
  congr 1
  simpa [Delivery.forget, Function.comp_def] using hsame

theorem Overruns.follow {nodesOnly : Bool} {iterate : Env → Run Cursor}
    (h : c.Overruns env.scoring d) {c' : Cursor}
    (hc : (c.follow env e nodesOnly iterate).Gives c') :
    ∃ d', (d.follow env e nodesOnly iterate).Gives d' ∧ c'.Overruns env.scoring d' := by
  cases hsteady : e.dependsOn .position with
  | true =>
    simp only [Cursor.follow, hsteady, if_true, Logged.gives_bind] at hc ⊢
    obtain ⟨items, hitems, hc⟩ := hc
    exact ⟨c', ⟨items, h.drain hitems, hc⟩, .refl c'⟩
  | false =>
    simp only [Cursor.follow, hsteady, Bool.false_eq_true, if_false, Logged.gives_pure] at hc ⊢
    exact ⟨_, rfl, hc ▸ h.chain _⟩

theorem Overruns.decidesAt {position : Nat} (h : c.Overruns scoring d)
    (hc : DecidesAt position (c.deliveries scoring) b) :
    DecidesAt position (d.deliveries scoring) b := by
  obtain hfails | ⟨n, h⟩ := h
  · exact absurd hc hfails.not_decidesAt
  cases n with
  | zero => exact hc.of_items (by simpa using h)
  | succ n =>
    have hmem : none ∈ (c.deliveries scoring).map fun x => x.1.toOption := by simp [h]
    generalize c.deliveries scoring = ds at hc h hmem
    cases hc with
    | nothing | number | atomic => simp [Except.toOption] at hmem
    | node =>
      cases hd : d.deliveries scoring with
      | nil => simp [hd, List.replicate_succ, Except.toOption] at h
      | cons first rest =>
        obtain ⟨_ | x, score⟩ := first
        · simp [hd, Except.toOption] at h
        · simp only [hd, List.map_cons, List.cons_append, List.cons.injEq, Except.toOption,
            Option.some.injEq] at h
          rw [← h.1]
          exact .node

/-- What is chained to a single item is what is opened for it, unless that fails. -/
theorem chain_single (link : Link) (scoring : Bool) (item : Item) :
    ((single item).chain link 0).BeginsWithFailure scoring ∨
    ∃ d, (link.start scoring 1 item).Gives d ∧ ((single item).chain link 0).Overruns scoring d := by
  have hchain : ((single item).chain link 0).deliveries scoring =
      link.deliveries scoring 0 [(.ok item, none)] := by
    rw [deliveries_chain, deliveries_single]
  simp only [Link.deliveries] at hchain
  cases haccept : link.accept item with
  | error f => exact .inl ⟨_, _, _, by rw [hchain, haccept]⟩
  | ok _ =>
    simp only [haccept, Link.block, List.append_nil] at hchain
    cases hstart : (link.start scoring (0 + 1) item).outcome with
    | error f => exact .inl ⟨_, _, _, by rw [hchain, hstart]⟩
    | ok d => exact .inr ⟨d, hstart, overruns_of_eq (by rw [hchain, hstart])⟩

end Cursor

section

open Cursor (Overruns BeginsWithFailure)

theorem followMaps_overruns : (es : List Expr) → {c d c' : Cursor} → c.Overruns env.scoring d →
    (followMaps call env c es).Gives c' → ∃ d', (followMaps call env d es).Gives d' ∧
    c'.Overruns env.scoring d'
  | [], c, d, c', h, hc => ⟨d, rfl, Logged.gives_pure.mp hc ▸ h⟩
  | _ :: es, c, d, c', h, hc => by
    obtain ⟨next, hnext, hc⟩ := Logged.gives_bind.mp hc
    obtain ⟨next', hnext', hover⟩ := h.follow hnext
    obtain ⟨d', hd', hover'⟩ := followMaps_overruns es hover hc
    exact ⟨d', Logged.gives_bind.mpr ⟨next', hnext', hd'⟩, hover'⟩

theorem followSteps_overruns : (es : List Expr) → {c d c' : Cursor} → {atMostOne : Bool} →
    c.Overruns env.scoring d →
    (followSteps call env c atMostOne es).Gives c' →
    ∃ d', (followSteps call env d atMostOne es).Gives d' ∧ c'.Overruns env.scoring d'
  | [], c, d, c', _, h, hc => ⟨d, rfl, Logged.gives_pure.mp hc ▸ h⟩
  | _ :: es, c, d, c', true, h, hc => by
    obtain ⟨next, hnext, hc⟩ := Logged.gives_bind.mp hc
    obtain ⟨next', hnext', hover⟩ := h.follow hnext
    obtain ⟨d', hd', hover'⟩ := followSteps_overruns es hover hc
    exact ⟨d', Logged.gives_bind.mpr ⟨next', hnext', hd'⟩, hover'⟩
  | _ :: _, c, d, c', false, h, hc => by
    obtain ⟨next, hnext, hc⟩ := Logged.gives_bind.mp hc
    obtain ⟨next', hnext', hover⟩ := h.follow hnext
    obtain ⟨items, hitems, hc⟩ := Logged.gives_bind.mp hc
    exact ⟨c', Logged.gives_bind.mpr
      ⟨next', hnext', Logged.gives_bind.mpr ⟨items, hover.drain hitems, hc⟩⟩, .refl c'⟩

theorem followMaps_beginsWithFailure :
    (es : List Expr) → {c d : Cursor} → c.BeginsWithFailure env.scoring →
    (followMaps call env c es).Gives d → d.BeginsWithFailure env.scoring
  | [], _, _, h, hd => Logged.gives_pure.mp hd ▸ h
  | _ :: es, _, _, h, hd => by
    obtain ⟨next, hnext, hd⟩ := Logged.gives_bind.mp hd
    exact followMaps_beginsWithFailure es (h.follow hnext) hd

/-- What follows one item, if it does not ask for its position, delivers what it does with the item
in focus. -/
theorem Cursor.follow_single (hc : call.IgnoresFocus) (hsteady : e.dependsOn .position = false)
    {item : Item} (hitem : env.focus.item = some item) {c c' : Cursor}
    (hover : c.Overruns env.scoring (.single item)) {nodesOnly : Bool}
    (h : (c.follow env e nodesOnly fun env => e.iterate call env).Gives c') :
    c'.BeginsWithFailure env.scoring ∨ ∃ d, (e.iterate call env).Gives d ∧
    c'.Overruns env.scoring d := by
  simp only [Cursor.follow, hsteady, Bool.false_eq_true, if_false, Logged.gives_pure] at h
  subst h
  have hfocus : e.iterate call (env.focusOn none env.scoring 1 item) = e.iterate call env :=
    Expr.iterate_withFocus hc e (hitem ▸ Focus.Alike.placed hsteady 1 none)
  obtain hfails | ⟨d, hd, hsingle⟩ := Cursor.chain_single
    ⟨if nodesOnly then admitNode e.location else fun _ => .ok (),
      fun scoring position item => e.iterate call
        (env.focusOn none scoring position item)⟩ env.scoring item
  · exact .inl (hfails.of_overruns (hover.chain _))
  · exact .inr ⟨d, hfocus ▸ hd, (hover.chain _).trans hsingle⟩

/-! ### Operands in front -/

section

variable {most : Nat} {P : Item → Prop} {first second : Expr} {es : List Expr} {τ τ' : StaticType}
    {l l' : Option Location}
  (hc : call.IgnoresFocus)

/-- Whether an expression gives just the item in focus, unless it fails in front of it or behind
it. -/
def Expr.GivesFocus (call : Caller) (env : Env) (most : Nat) (P : Item → Prop) (e : Expr) : Prop :=
  ∀ item, P item → ∀ env', env.Seats most item env' →
    ∃ c, (e.iterate call env').Gives c ∧ c.Overruns env'.scoring (.single item)

theorem Expr.GivesFocus.overruns {item : Item} {env' : Env} {c : Cursor}
    (h : first.GivesFocus call env most P) (hitem : P item) (henv' : env.Seats most item env')
    (hc : (first.iterate call env').Gives c) : c.Overruns env'.scoring (.single item) := by
  obtain ⟨d, hd, hover⟩ := h item hitem env' henv'
  exact hc.unique hd ▸ hover

theorem Expr.iterate_contextItem (he : e.isContextItem = true) {item : Item}
    (hitem : env.focus.item = some item) : (e.iterate call env).Gives (.single item) := by
  obtain ⟨form, τ, l⟩ := e
  cases form <;> simp only [isContextItem, Bool.false_eq_true] at he
  simp [iterate, Form.iterate, Env.contextItem, hitem]

theorem Expr.delivers_contextItem (he : e.isContextItem = true) {item : Item}
    (hitem : env.focus.item = some item) : e.Delivers call env [item] :=
  ⟨.single item, iterate_contextItem he hitem,
    by simp [Cursor.deliveries_single], by simp [Cursor.deliveries_single]⟩

theorem Expr.contextItem_givesFocus (he : e.isContextItem = true) : e.GivesFocus call env most P :=
  fun _ _ _ henv' => ⟨_, iterate_contextItem he henv'.focus_item, .refl _⟩

include hc

theorem map_supplants (hfirst : first.GivesFocus call env most P)
    (hsteady : second.dependsOn .position = false) :
    Supplants call env most P ⟨.map (first :: second :: es), τ, l⟩
      ⟨.map (second :: es), τ', l'⟩ := by
  intro item hitem env' henv' b hb
  obtain ⟨c, hgives, hdecides⟩ := Expr.holds_iff.mp hb
  simp only [Expr.iterate, Form.iterate, Logged.gives_locate, Logged.gives_bind,
    followMaps] at hgives
  obtain ⟨start, hstart, next, hnext, hgives⟩ := hgives
  obtain hfails | ⟨d, hd, hover⟩ :=
    Cursor.follow_single hc hsteady henv'.focus_item (hfirst.overruns hitem henv' hstart) hnext
  · exact absurd hdecides (followMaps_beginsWithFailure es hfails hgives).not_decidesAt
  · obtain ⟨c', hc', hover⟩ := followMaps_overruns es hover hgives
    refine Expr.holds_iff.mpr ⟨c', ?_, hover.decidesAt hdecides⟩
    simp only [Expr.iterate, Form.iterate, Logged.gives_locate, Logged.gives_bind]
    exact ⟨d, hd, hc'⟩

omit hc in
theorem map_single_supplants : Supplants call env most P ⟨.map [e], τ, l⟩ e := by
  intro item hitem env' henv' b hb
  obtain ⟨c, hgives, hdecides⟩ := Expr.holds_iff.mp hb
  simp only [Expr.iterate, Form.iterate, Logged.gives_locate, Logged.gives_bind, followMaps,
    Logged.gives_pure, exists_eq_right] at hgives
  exact Expr.holds_iff.mpr ⟨c, hgives, hdecides⟩

omit hc in
theorem path_supplants (hfirst : first.GivesFocus call env most P)
    (hone : first.type.atMostOne = true) :
    Supplants call env most P ⟨.path first es, τ, l⟩ ⟨.relativePath es, τ', l'⟩ := by
  intro item hitem env' henv' b hb
  obtain ⟨c, hgives, hdecides⟩ := Expr.holds_iff.mp hb
  simp only [Expr.iterate, Form.iterate, Logged.gives_locate, Logged.gives_bind, hone] at hgives
  obtain ⟨start, hstart, hgives⟩ := hgives
  obtain ⟨c', hc', hover⟩ := followSteps_overruns es (hfirst.overruns hitem henv' hstart) hgives
  refine Expr.holds_iff.mpr ⟨c', ?_, hover.decidesAt hdecides⟩
  simpa [Expr.iterate, Form.iterate, Env.contextItem, henv'.focus_item] using hc'

theorem relativePath_single_supplants (hsteady : e.dependsOn .position = false) :
    Supplants call env most P ⟨.relativePath [e], τ, l⟩ e := by
  intro item hitem env' henv' b hb
  obtain ⟨c, hgives, hdecides⟩ := Expr.holds_iff.mp hb
  simp only [Expr.iterate, Form.iterate, Logged.gives_locate, Logged.gives_bind, followSteps,
    if_true, Logged.gives_pure, exists_eq_right, Env.contextItem, henv'.focus_item,
    exists_eq_left'] at hgives
  obtain hfails | ⟨d, hd, hover⟩ :=
    Cursor.follow_single hc hsteady henv'.focus_item (.refl _) hgives
  · exact absurd hdecides hfails.not_decidesAt
  · exact Expr.holds_iff.mpr ⟨d, hd, hover.decidesAt hdecides⟩

omit hc in
theorem relativePath_nil_supplants (he : e.isContextItem = true) :
    Supplants call env most P ⟨.relativePath [], τ, l⟩ e := by
  intro item hitem env' henv' b hb
  have hfocus : Expr.Delivers call env' ⟨.relativePath [], τ, l⟩ [item] := by
    refine ⟨.single item, ?_, ?_, ?_⟩
    · simp [Expr.iterate, Form.iterate, Env.contextItem, henv'.focus_item, followSteps]
    all_goals simp [Cursor.deliveries_single]
  rw [hfocus.holds_iff] at hb
  exact (Expr.delivers_contextItem he henv'.focus_item).holds_iff.mpr hb

end

end

/-! ### What is empty by its static types -/

section

variable {Γ : List Variable} {K : Knowledge} {es : List Expr} {l : Option Location}

theorem DecidesAt.eq_false {position : Nat} {ds : List Delivery} (h : DecidesAt position ds b)
    (hds : delivered ds = []) : b = false := by
  cases h with
  | nothing => rfl
  | number | atomic | node => cases hds

variable (hcall : call.Sound) (henv : env.Fits Γ K)

include hcall henv

theorem Expr.Holds.eq_false_of_isZero (h : e.Holds call env b) (he : e.Annotated Γ K)
    (hzero : e.type.isZero = true) : b = false := by
  obtain ⟨c, hc, hdecides⟩ := Expr.holds_iff.mp h
  refine hdecides.eq_false (List.eq_nil_iff_forall_not_mem.mpr fun item hitem => ?_)
  have hfits := Expr.iterate_fits hcall henv he hc e.type he.infers env.scoring
  exact absurd hzero (Bool.eq_false_iff.mp (hfits.isZero_eq_false hitem))

theorem holds_map_of_isZero {τ : StaticType} (h : Expr.Holds call env ⟨.map es, τ, l⟩ b)
    (hann : AnnotatedChain Γ K es) (hzero : es.any (·.type.isZero) = true) : b = false := by
  obtain ⟨c, hc, hdecides⟩ := Expr.holds_iff.mp h
  refine hdecides.eq_false ?_
  cases es with
  | nil => cases hzero
  | cons first rest =>
    simp only [Expr.iterate, Form.iterate, Logged.gives_locate, Logged.gives_bind] at hc
    obtain ⟨start, hstart, hc⟩ := hc
    rw [AnnotatedChain] at hann
    have hfirst := Expr.iterate_fits hcall henv hann.1 hstart
    have hcounted := (followMaps_fits hcall henv hann.2 (hann.1.supplies hfirst) hc).2
      first.type.occurrence none _
      hann.2.infers (hfirst _ hann.1.infers).counted.anySize
    have hnone : chainOccurrence .one (first :: rest) = .zero := chainOccurrence_eq_zero hzero
    rw [chainOccurrence, List.foldl_cons, Occurrence.one_multiply] at hnone
    rw [List.foldl_map, hnone] at hcounted
    exact List.eq_nil_of_length_eq_zero (Nat.le_zero.mp ((hcounted env.scoring).atMost 0 rfl))

end

/-! ### The rules -/

theorem Supplants.of_form (hplace : call.IgnoresPlace) {most : Nat} {P : Item → Prop}
    (h : e.form = e'.form) : Supplants call env most P e e' :=
    fun _ _ _ _ _ hb => hb.of_gist_eq hplace (by rw [h])

section

variable {host : Host} {t : StaticType} {Γ : List Variable} {K : Knowledge}
    {most : Nat} {first : Expr}
  (hc : call.IgnoresFocus) (hplace : call.IgnoresPlace) (hcall : call.Sound) (henv : env.Fits Γ K)

include hc hplace hcall henv

theorem Host.givesItem_givesFocus (hhost : host.Annotated Γ K)
    (ht : ∀ r, host = .root r → t = r.type)
    (halike : ∀ r, host = .root r → r.same e = true → r.form.gist = e.form.gist)
    (he : host.givesItem t e = true) : e.GivesFocus call env most (host.Has call env) := by
  simp only [Host.givesItem, Bool.or_eq_true, Bool.and_eq_true] at he
  obtain hcontext | ⟨⟨hroot, hsimple⟩, hone⟩ := he
  · exact Expr.contextItem_givesFocus hcontext
  intro item hhas env' henv'
  cases host with
  | step => cases hroot
  | root r =>
    obtain rfl := ht r rfl
    obtain ⟨c, hgives, hitem⟩ := hhas
    have hdelivered : delivered (c.deliveries env.scoring) = [item] := by
      have hmax : (Host.root r).type.occurrence.max = some 1 := by
        rw [show (Host.root r).type.occurrence = .one from eq_of_beq hone]
        rfl
      have hlength :=
        (Expr.iterate_fits hcall henv hhost hgives _ hhost.infers env.scoring).counts.atMost 1 hmax
      obtain ⟨x, hx⟩ := List.length_eq_one_iff.mp (hlength.antisymm (List.length_pos_of_mem hitem))
      rw [hx] at hitem ⊢
      rw [List.mem_singleton.mp hitem]
    obtain ⟨c', hgives', hsame⟩ :=
      (Expr.iterate_of_gist_eq hplace (halike r rfl hroot) env).exists_gives hgives
    simp only [Expr.isSimple, Bool.and_eq_true, Bool.not_eq_true'] at hsimple
    obtain ⟨size, position, rfl, -⟩ := henv'
    have hfocus : e.iterate call (env.focusOn (some size) env.scoring position item) =
        e.iterate call env :=
      Expr.iterate_withFocus hc e (.of_neither hsimple.1.1 hsimple.1.2)
    exact ⟨c', hfocus ▸ hgives', Cursor.overruns_single (hsame.delivered ▸ hdelivered)⟩

end

/-! ### Positional tests -/

theorem Expr.value_last (he : e.isCallOf .last = true) {size position : Nat}
    (hsize : size ≤ memoryLimit) {scoring : Bool} {item : Item} :
    (e.value call (env.focusOn (some size) scoring position item)).Gives
      [.atomic (.integer size)] := by
  obtain ⟨form, τ, l⟩ := e
  cases form <;> simp only [isCallOf, Bool.false_eq_true] at he
  next f args =>
    obtain rfl := beq_iff_eq.mp he
    have hinteger : min (size : Int) Atomic.maxInteger = size := by
      have hlimit : (memoryLimit : Int) ≤ Atomic.maxInteger := by decide
      omega
    refine Expr.value_of_ofList ?_ (Nat.pow_pos (by decide))
    rw [← hinteger, Form.iterate]
    cases args <;> exact Logged.gives_map.mpr ⟨_, rfl, rfl⟩

theorem Atomic.compare_eq_positions {m n : Nat} (hm : m ≤ memoryLimit) (hn : n ≤ memoryLimit) :
    Atomic.compare .eq (.integer m) (.integer n) = .ok (m == n) := by
  have hsame : (m == n) = (Format.double.ofInt m).same (Format.double.ofInt n) := by
    rw [Bool.eq_iff_iff, Number.same_ofInt_iff hm hn, beq_iff_eq]
  rw [hsame, Number.same]
  simp only [Atomic.compare, Atomic.number?]
  cases (Format.double.ofInt m).compare? (Format.double.ofInt n) with
  | none => rfl
  | some order => cases order <;> rfl

theorem Expr.value_comparesWithLast {op : CompareOp} {left right : Expr} {style : CompareStyle}
    {τ : StaticType} {l : Option Location} (h : comparesWithLast op left right = true)
    {size position : Nat} (hsize : size ≤ memoryLimit) (hposition : position ≤ size)
    {scoring : Bool} {item : Item} :
    (Expr.value call (env.focusOn (some size) scoring position item)
      ⟨.comparison style op left right, τ, l⟩).Gives [.atomic (.boolean (position == size))] := by
  simp only [comparesWithLast, Bool.and_eq_true, Bool.or_eq_true, beq_iff_eq] at h
  obtain ⟨rfl, ⟨hleft, hright⟩ | ⟨hleft, hright⟩⟩ := h
  · exact Expr.value_comparison (Expr.value_position hleft rfl (hposition.trans hsize))
      (Expr.value_last hright hsize) rfl rfl
      (Atomic.compare_eq_positions (hposition.trans hsize) hsize)
  · refine Expr.value_comparison (Expr.value_last hleft hsize)
      (Expr.value_position hright rfl (hposition.trans hsize)) rfl rfl ?_
    rw [Bool.beq_comm]
    exact Atomic.compare_eq_positions hsize (hposition.trans hsize)

theorem Expr.Holds.of_value {b' : Bool} (h : e.Holds call env b)
    (hvalue : (e.value call env).Gives [.atomic (.boolean b')]) : b = b' :=
  (Expr.Delivers.of_drained (Expr.value_iff_drained.mp hvalue)).holds_boolean.mp h

/-- The test that a comparison is recognized as has its verdicts. -/
theorem optimizePositionTest_supplants {most : Nat} {P : Item → Prop} (hmost : most ≤ memoryLimit)
    (hunequal : ∀ style left right, e.form = .comparison style .ne left right →
      recognizePosition .ne left right = none) (h : (optimizePositionTest e).Gives e') :
    Supplants call env most P e e' := by
  obtain ⟨form, τ, l⟩ := e
  obtain rfl | ⟨style, op, left, right, place, rfl, hcases⟩ := optimizePositionTest_cases h
  · exact .refl _
  intro item _ env' henv' b hb
  obtain ⟨test, htest, rfl⟩ | ⟨hlast, rfl⟩ := hcases
  · have hop : op ≠ .ne := by
      rintro rfl
      rw [hunequal style left right rfl] at htest
      cases htest
    refine Expr.holds_ofPositionTest.mpr (hb.of_value ?_)
    exact Expr.value_recognized (henv'.focus_item ▸ rfl) henv'.one_le
      (henv'.le.trans hmost) hop htest
  · obtain ⟨size, position, rfl, -, hposition, hsize⟩ := henv'
    obtain rfl := hb.of_value (Expr.value_comparesWithLast hlast (hsize.trans hmost) hposition)
    refine ⟨if position == size then some .zero else none, ?_, ?_⟩
    · rw [Expr.test_last rfl (hsize.trans hmost) hposition]
      rfl
    · cases position == size <;> rfl

section

variable {scope : Scope} {es : List Expr} {τ τ' : StaticType} {l l' place : Option Location}
    {most : Nat} {P : Item → Prop}
  {Γ : List Variable} {K L : Knowledge} (hc : call.IgnoresFocus) (hplace : call.IgnoresPlace)
    (hcall : call.Sound)
  (henv : env.Fits Γ K) (hP : ∀ item, P item → L.Holds env.forest item ∧ item.Good)

include hc hplace

theorem dropContextItems_supplants : {es kept : List Expr} → (dropContextItems es).Gives kept →
    Supplants call env most P ⟨.map es, τ, l⟩ ⟨.map kept, τ', l'⟩
  | [], kept, h => Logged.gives_pure.mp h ▸ .of_form hplace rfl
  | [_], kept, h => Logged.gives_pure.mp h ▸ .of_form hplace rfl
  | first :: second :: rest, kept, h => by
    obtain ⟨hitem, hsteady, h⟩ | rfl := dropContextItems_cons h
    · exact (map_supplants hc (Expr.contextItem_givesFocus hitem) hsteady).trans
        (dropContextItems_supplants h)
    · exact .of_form hplace rfl

include hcall henv hP

theorem optimizeMap_supplants (hann : AnnotatedChain Γ L es)
    (h : (optimizeMap scope es l).Gives e') : Supplants call env most P ⟨.map es, τ, place⟩ e' := by
  obtain ⟨kept, hkept, h⟩ := optimizeMap_cases h
  obtain ⟨hdrop, hann⟩ : Supplants call env most P ⟨.map es, τ, place⟩ ⟨.map kept, τ, place⟩ ∧
      AnnotatedChain Γ L kept := by
    obtain rfl | ⟨-, hkept⟩ := hkept
    · exact ⟨.refl _, hann⟩
    · exact ⟨dropContextItems_supplants hc hplace hkept, dropContextItems_annotated hkept hann⟩
  refine hdrop.trans ?_
  obtain ⟨operand, rfl, rfl⟩ | ⟨-, rfl⟩ | ⟨⟨hzero, -⟩, place', rfl⟩ := h
  · exact map_single_supplants.trans (.of_form hplace rfl)
  · exact .of_form hplace rfl
  · intro item hitem env' henv' b hb
    exact Expr.holds_empty.mpr
      (holds_map_of_isZero hcall (henv'.fits henv (hP item hitem)) hb hann hzero)

omit hc hplace hcall henv hP in
theorem Expr.steady_of_isStep (h : e.isStep = true) : e.dependsOn .position = false := by
  obtain ⟨form, τ, l⟩ := e
  cases form <;> simp_all [isStep, dependsOn, Form.dependsOn]

omit hc hplace hcall henv hP in
theorem flattenSteps_of_flat :
    {steps : List Expr} → (∀ s ∈ steps, ∀ inner, s.form ≠ .relativePath inner) →
    flattenSteps scope steps = steps
  | [], _ => rfl
  | s :: ss, h => by
    rw [flattenSteps_cons, flattenSteps_of_flat fun s hs => h s (List.mem_cons_of_mem _ hs)]
    obtain hs | ⟨inner, τ, l, rfl, -⟩ := flattenSteps_single scope s
    · rw [hs]
      rfl
    · exact absurd rfl (h _ List.mem_cons_self inner)

theorem optimizePath_none_supplants (hflat : ∀ s ∈ es, ∀ inner, s.form ≠ .relativePath inner)
    (hann : AnnotatedChain Γ L es) (h : (optimizePath scope none es l).Gives e') :
    Supplants call env most P ⟨.relativePath es, τ, place⟩ e' := by
  have hcases := optimizePath_none_cases h
  rw [flattenSteps_of_flat hflat] at hcases
  obtain ⟨rfl, rfl⟩ | ⟨rfl, hstep⟩ | ⟨-, rfl⟩ | ⟨⟨hzero, -⟩, place', rfl⟩ := hcases
  · exact relativePath_nil_supplants rfl
  · exact relativePath_single_supplants hc (Expr.steady_of_isStep hstep)
  · exact .of_form hplace rfl
  · intro item hitem env' henv' b hb
    let path : Expr := ⟨.relativePath es, .of (lastItemType es) (chainOccurrence .one es), place⟩
    have hpath : path.Holds call env' b := hb.of_gist_eq hplace rfl
    have hempty : path.type.isZero = true := by
      simp only [path, chainOccurrence_eq_zero hzero]
      rfl
    exact Expr.holds_empty.mpr
      (hpath.eq_false_of_isZero hcall (henv'.fits henv (hP item hitem))
      (annotated_relativePath hann) hempty)

end

/-! ### Predicates of a host -/

section

variable {opt : Optimizer} {scope : Scope} {host : Host} {t : StaticType} {K : Knowledge}
    {most : Nat} {Written : Expr → Prop}
  (hc : call.IgnoresFocus) (hplace : call.IgnoresPlace) (hcall : call.Sound)
  (henv : env.Fits scope.visible K)
  (hhost : host.Annotated scope.visible K) (ht : ∀ r, host = .root r → t = r.type)
  (hparts : ∀ e, Written e → ∀ part ∈ e.form.parts, Written part)
  (htwins : TwinsAlike fun e => host = .root e ∨ Written e)
  (he : e.form.Formed Written) (hann : e.Annotated scope.visible (host.offers K))

include hc hplace hcall henv hhost ht htwins

omit hc hplace hcall henv hhost he hann in
theorem atMostOne_of_givesItem {first : Expr} (hfirst : Written first)
    (hgives : host.givesItem t first = true)
    (hsingle : first.isContextItem = true → first.type.atMostOne = true) :
    first.type.atMostOne = true := by
  simp only [Host.givesItem, Bool.or_eq_true, Bool.and_eq_true] at hgives
  obtain hcontext | ⟨⟨hroot, -⟩, hone⟩ := hgives
  · exact hsingle hcontext
  cases host with
  | step => cases hroot
  | root r =>
    have htype : r.type.gist .amount = first.type.gist .amount := by
      simpa only [Expr.type_gist] using congrArg Expr.type
        (htwins r first (.inl rfl) (.inr hfirst) hroot)
    rw [← StaticType.atMostOne_gist, ← htype, StaticType.atMostOne_gist, ← ht r rfl,
      StaticType.atMostOne, eq_of_beq hone]
    rfl

omit he hann in
theorem givesItem_of_written {first : Expr} (hfirst : Written first)
    (hgives : host.givesItem t first = true) :
    first.GivesFocus call env most (host.Has call env) := by
  refine Host.givesItem_givesFocus hc hplace hcall henv hhost ht (fun r hr hsame => ?_) hgives
  obtain ⟨form, τ, l⟩ := r
  obtain ⟨form', τ', l'⟩ := first
  exact congrArg Expr.form (htwins _ _ (.inl hr) (.inr hfirst) hsame)

include hparts he hann

theorem unwrapMap_supplants (h : (unwrapMap scope host t e).Gives e') :
    Supplants call env most (host.Has call env) e e' := by
  obtain rfl | ⟨first, second, rest, hform, hgives, hsteady, h⟩ := unwrapMap_cases h
  · exact .refl _
  obtain ⟨form, τ, l⟩ := e
  subst hform
  have hfirst : first.GivesFocus call env most (host.Has call env) :=
    givesItem_of_written hc hplace hcall henv hhost ht htwins
      (he.part hparts first List.mem_cons_self) hgives
  have hdrop : Supplants call env most (host.Has call env) ⟨.map (first :: second :: rest), τ, l⟩
      ⟨.map (second :: rest), τ, l⟩ :=
    map_supplants hc hfirst hsteady
  simp only [Expr.Annotated, Form.Annotated] at hann
  have hchain : AnnotatedChain scope.visible (host.offers K) (first :: second :: rest) := hann.2
  rw [AnnotatedChain] at hchain
  obtain ⟨rfl, rfl⟩ | h := h
  · exact hdrop.trans map_single_supplants
  · exact hdrop.trans
      (optimizeMap_supplants hc hplace hcall henv (fun _ hitem => hitem.holds hcall henv hhost)
      (hchain.2.refine (host.givesItem_offers hgives)) h)

theorem unwrapPath_supplants
    (hsingle : ∀ e, Written e → ∀ first steps, e.form = .path first steps →
      first.isContextItem = true →
      first.type.atMostOne = true)
    (hflat : ∀ e, Written e → ∀ first steps, e.form = .path first steps →
      ∀ s ∈ steps, ∀ inner, s.form ≠ .relativePath inner)
    (h : (unwrapPath scope host t e).Gives e') :
    Supplants call env most (host.Has call env) e e' := by
  obtain rfl | ⟨first, steps, hform, hgives, hsteps, h⟩ := unwrapPath_cases h
  · exact .refl _
  have hwritten := he.part hparts
  obtain ⟨form, τ, l⟩ := e
  subst hform
  obtain ⟨d, hd, hform⟩ | ⟨hlaid, -⟩ := he
  swap
  · cases hlaid
  have hfirst : Written first := hwritten first List.mem_cons_self
  have hdrop : Supplants call env most (host.Has call env) ⟨.path first steps, τ, l⟩
      ⟨.relativePath steps, τ, l⟩ :=
    path_supplants (givesItem_of_written hc hplace hcall henv hhost ht htwins hfirst hgives)
      (atMostOne_of_givesItem ht htwins hfirst hgives (hsingle d hd first steps hform))
  simp only [Expr.Annotated, Form.Annotated] at hann
  obtain rfl | h := h
  · refine hdrop.trans (relativePath_single_supplants hc ?_)
    exact (hsteps e' List.mem_cons_self).elim Expr.steady_of_isStep id
  · exact hdrop.trans
      (optimizePath_none_supplants hc hplace hcall henv
      (fun _ hitem => hitem.holds hcall henv hhost)
      (hflat d hd first steps hform) (hann.2.2.refine (host.givesItem_offers hgives)) h)

/-- The last rules for a predicate leave one predicate, which has its verdicts. -/
theorem finishPredicate_supplants
    (hsingle : ∀ e, Written e → ∀ first steps, e.form = .path first steps →
      first.isContextItem = true →
      first.type.atMostOne = true)
    (hflat : ∀ e, Written e → ∀ first steps, e.form = .path first steps →
      ∀ s ∈ steps, ∀ inner, s.form ≠ .relativePath inner) (hinlined : ∀ root v, host = .root root →
      root.form ≠ .literal [v]) {old : Expr} {result : Host × List Expr}
    (h : (finishPredicate opt scope t host old e).Gives result) :
    ∃ e', result = (host, [e']) ∧ Supplants call env most (host.Has call env) e e' := by
  obtain ⟨unwrapped, inlined, place, hunwrapped, hroot, rfl⟩ := finishPredicate_cases h
  obtain rfl | ⟨root, v, hhost, hliteral, -⟩ := inlineRoot_cases hroot
  · exact ⟨_, rfl,
      (unwrapPath_supplants hc hplace hcall henv hhost ht hparts htwins he hann hsingle hflat
      hunwrapped).trans
      (.of_form hplace rfl)⟩
  · exact absurd hliteral (hinlined root v hhost)

end

end TreeQuery
