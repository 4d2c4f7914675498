import TreeQuery.Proofs.Filter.Twins
import TreeQuery.Proofs.Rewriting.Path
/-!
# The items of a host

What a host gives its predicates to filter: the value of a root, or the nodes of an axis that pass a
test, numbered along the axis. A narrower host has fewer items, those that pass the narrower test.
-/

namespace TreeQuery

namespace Host

/-- Whether these are the items of a host, and no failure. -/
def Delivers (call : Caller) (env : Env) : Host → List Item → Prop
  | .root r, items => r.Delivers call env items
  | .step axis test, items => ∃ n, env.focus.item = some (.node n) ∧
      items = ((env.forest.axisNodes n axis).filter (test.passes env.forest)).map .node

/-- Whether an item is one of those of a host; the root may fail behind it. -/
def Has (call : Caller) (env : Env) : Host → Item → Prop
  | .root r, item => ∃ c, (r.iterate call env).Gives c ∧ item ∈ delivered (c.deliveries env.scoring)
  | .step axis test, item => ∃ items, (Host.step axis test).Delivers call env items ∧ item ∈ items

variable {call : Caller} {env : Env} {host : Host} {items items' : List Item} {item : Item}

theorem Delivers.unique (h : host.Delivers call env items) (h' : host.Delivers call env items') :
    items = items' := by
  cases host with
  | root r => exact Expr.Delivers.unique h h'
  | step axis test =>
    obtain ⟨n, hn, rfl⟩ := h
    obtain ⟨n', hn', rfl⟩ := h'
    cases hn.symm.trans hn'
    rfl

theorem Delivers.has_iff (h : host.Delivers call env items) :
    host.Has call env item ↔ item ∈ items := by
  cases host with
  | root r =>
    obtain ⟨c, hc, -, rfl⟩ := h
    exact ⟨fun ⟨_, hc', hitem⟩ => hc.unique hc' ▸ hitem, fun hitem => ⟨c, hc, hitem⟩⟩
  | step axis test =>
    exact ⟨fun ⟨_, h', hitem⟩ => h.unique h' ▸ hitem, fun hitem => ⟨items, h, hitem⟩⟩

section

variable {Γ : List Variable} {K : Knowledge} (hcall : call.Sound) (henv : env.Fits Γ K)
    (hhost : host.Annotated Γ K)

include hcall henv hhost

theorem Delivers.fits (h : host.Delivers call env items) :
    host.type.Fits env.forest items True := by
  cases host with
  | root r => exact (Expr.Delivers.fits hcall henv hhost h).1
  | step axis test =>
    obtain ⟨n, -, rfl⟩ := h
    exact stepNodes_fits axis test n

omit hcall henv hhost in
theorem Delivers.length_le_one (h : host.Delivers call env items)
    (hsingleton : host.isSingleton = true) : items.length ≤ 1 := by
  cases host with
  | root r => cases hsingleton
  | step axis test =>
    obtain ⟨n, -, rfl⟩ := h
    have hstep : (stepType axis test).occurrence = .zeroOrOne := if_pos hsingleton
    exact (stepNodes_fits axis test n).counts.atMost 1 (by rw [hstep]; rfl)

theorem Has.holds (h : host.Has call env item) :
    (host.offers K).Holds env.forest item ∧ item.Good := by
  cases host with
  | root r =>
    obtain ⟨c, hc, hitem⟩ := h
    exact hhost.supplies (fun τ hτ => Expr.iterate_fits hcall henv hhost hc τ hτ)
      env.scoring item hitem
  | step axis test =>
    obtain ⟨items, ⟨n, -, rfl⟩, hitem⟩ := h
    obtain ⟨m, hm, rfl⟩ := List.mem_map.mp hitem
    obtain ⟨hm, hpasses⟩ := List.mem_filter.mp hm
    exact ⟨fun t ht => ht env.forest n m hm hpasses, trivial⟩

theorem Has.isInstance (h : host.Has call env item) :
    item.isInstance env.forest host.type.item = true := by
  cases host with
  | root r =>
    obtain ⟨c, hc, hitem⟩ := h
    exact (Expr.iterate_fits hcall henv hhost hc _ hhost.infers env.scoring).item item hitem
  | step axis test =>
    obtain ⟨items, ⟨n, -, rfl⟩, hitem⟩ := h
    exact (stepNodes_fits axis test n).item item hitem

end

end Host

/-! ### Narrower hosts -/

theorem bothDemands_eq {α : Type} [DecidableEq α] {a b c : Option α}
    (h : bothDemands a b = some c) : c = a ∨ c = b := by
  cases a <;> cases b <;> simp_all [bothDemands]

theorem NodeTest.passes_intersect {a b t : NodeTest} (h : a.intersect b = some t) (f : Forest)
    (n : NodeId) : t.passes f n = (a.passes f n && b.passes f n) := by
  refine Bool.eq_iff_iff.mpr
    ⟨fun hn => Bool.and_eq_true_iff.mpr (passes_of_intersect h hn), fun hn => ?_⟩
  obtain ⟨kind, hkind, name, hname, rfl⟩ : ∃ kind, bothDemands a.kind b.kind = some kind ∧
      ∃ name, bothDemands a.name b.name = some name ∧ ⟨kind, name⟩ = t := by
    simpa [NodeTest.intersect, Option.bind_eq_some_iff] using h
  simp only [NodeTest.passes, Bool.and_eq_true] at hn ⊢
  obtain ⟨⟨hak, han⟩, hbk, hbn⟩ := hn
  refine ⟨?_, ?_⟩
  · obtain rfl | rfl := bothDemands_eq hkind
    · exact hak
    · exact hbk
  · obtain rfl | rfl := bothDemands_eq hname
    · exact han
    · exact hbn

def Item.passes (forest : Forest) (test : NodeTest) : Item → Bool
  | .node n => test.passes forest n
  | _ => false

namespace Host

variable {call : Caller} {env : Env} {items : List Item} {item : Item} {axis : Axis}
    {own self both : NodeTest}

theorem Delivers.narrow (h : (Host.step axis own).Delivers call env items)
    (hpasses : ∀ n, both.passes env.forest n = true → own.passes env.forest n = true) :
    (Host.step axis both).Delivers call env (items.filter (·.passes env.forest both)) := by
  obtain ⟨n, hn, rfl⟩ := h
  refine ⟨n, hn, ?_⟩
  rw [List.filter_map, List.filter_filter]
  refine congrArg (List.map Item.node) (List.filter_congr fun m _ => ?_)
  have := hpasses m
  simp only [Function.comp_apply, Item.passes]
  cases hboth : both.passes env.forest m <;> simp_all

theorem Has.narrow (h : (Host.step axis own).Has call env item)
    (hboth : own.intersect self = some both) :
    (Host.step axis both).Has call env item ↔ item.passes env.forest self = true := by
  obtain ⟨items, hitems, hitem⟩ := h
  rw [(hitems.narrow fun n hn => (NodeTest.passes_of_intersect hboth hn).1).has_iff,
    List.mem_filter, and_iff_right hitem]
  obtain ⟨n, -, rfl⟩ := hitems
  obtain ⟨m, hm, rfl⟩ := List.mem_map.mp hitem
  rw [Item.passes, NodeTest.passes_intersect hboth, (List.mem_filter.mp hm).2,
    Bool.true_and, Item.passes]

theorem Narrows.has {host host' : Host} (hn : host.Narrows host') (h : host'.Has call env item) :
    host.Has call env item := by
  cases host <;> cases host' <;> simp only [Narrows] at hn
  · exact hn ▸ h
  · obtain ⟨rfl, hpasses⟩ := hn
    obtain ⟨_, ⟨n, hn, rfl⟩, hitem⟩ := h
    exact ⟨_, ⟨n, hn, rfl⟩, List.map_subset _
      (List.monotone_filter_right _ (hpasses env.forest)).subset hitem⟩

theorem Narrows.delivers {host host' : Host} (hn : host.Narrows host')
    (h : host.Delivers call env items) :
    ∃ p : Item → Bool, host'.Delivers call env (items.filter p) := by
  cases host <;> cases host' <;> simp only [Narrows] at hn
  · exact ⟨fun _ => true, by rw [List.filter_true, ← hn]; exact h⟩
  · obtain ⟨rfl, hpasses⟩ := hn
    exact ⟨_, h.narrow (hpasses env.forest)⟩

end Host

/-! ### Regular predicates -/

/-- What the rules for predicates take for granted. -/
structure Host.Regular (host : Host) (es : List Expr) : Prop where
  /-- No predicate asks whether the position is unequal to what is not a number. -/
  unequal : ∀ e ∈ es, ∀ style left right, e.form = .comparison style .ne left right →
    recognizePosition .ne left right = none
  /-- The root is no literal of one item, which would be put into the predicates. -/
  inlined : ∀ root v, host = .root root → root.form ≠ .literal [v]
  /-- The root and what is written in the predicates are the same to evaluation where they are the
  same. -/
  twins : TwinsAlike fun e => host = .root e ∨ WrittenIn es e
  /-- A context item at the beginning of a path is known to be a single item. -/
  single : ∀ e, WrittenIn es e → ∀ first steps, e.form = .path first steps →
    first.isContextItem = true →
    first.type.atMostOne = true
  /-- Nested paths are written out. -/
  flat : ∀ e, WrittenIn es e → ∀ first steps, e.form = .path first steps →
    ∀ s ∈ steps, ∀ inner, s.form ≠ .relativePath inner

theorem Host.Regular.narrows {host host' : Host} {es : List Expr} (h : host.Regular es)
    (hn : host.Narrows host') : host'.Regular es := by
  have hroot (r : Expr) (hr : host' = .root r) : host = .root r := by
    subst hr
    cases host with
    | root e => exact congrArg Host.root hn
    | step axis test => cases hn
  refine ⟨h.unequal, fun root v hr => h.inlined root v (hroot root hr), fun e e' he he' hsame => ?_,
    h.single, h.flat⟩
  exact h.twins e e' (he.imp_left (hroot e)) (he'.imp_left (hroot e')) hsame

end TreeQuery
