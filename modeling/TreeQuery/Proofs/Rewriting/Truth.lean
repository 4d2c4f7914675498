import TreeQuery.Proofs.Check.Streaming
import TreeQuery.Proofs.Eval.Location
import TreeQuery.Proofs.Rewriting.Walk
import TreeQuery.Proofs.Truth.Lifting
import TreeQuery.Proofs.Typing.Compile
/-!
# Expressions of which only the truth counts

`Decides` tells how the deliveries of a cursor decide its truth, and is all there is to it
(`Cursor.truth_iff`). The rules for the truth of calls rest on it: what takes the place of an
expression is as true as the expression wherever that has a truth (`simplify_truth`). Filters, whose
last predicate moves out of the brackets, are left out here (`Expr.filterFree`).
-/

namespace TreeQuery

/-! ### Expressions without filters -/

mutual

/-- Whether no filter is nested in an expression, the bodies of function items apart. -/
def Expr.filterFree : Expr → Bool
  | ⟨form, _, _⟩ => form.filterFree

def Form.filterFree : Form → Bool
  | .filter .. => false
  | .literal _ | .function _ | .contextItem | .position _ | .reference _ | .failure _ => true
  | .conjunction es | .disjunction es | .call _ es | .step _ _ es | .relativePath es | .map es =>
    filterFreeAll es
  | .comparison _ _ a b | .containsText a b => a.filterFree && b.filterFree
  | .path e es | .apply e es => e.filterFree && filterFreeAll es
  | .conditional a b c => a.filterFree && b.filterFree && c.filterFree
  | .check e _ _ => e.filterFree

def filterFreeAll : List Expr → Bool
  | [] => true
  | e :: es => e.filterFree && filterFreeAll es

end

theorem filterFreeAll_iff {es : List Expr} :
    filterFreeAll es = true ↔ ∀ e ∈ es, e.filterFree = true := by
  induction es with
  | nil => simp [filterFreeAll]
  | cons e es ih => simp [filterFreeAll, ih]

@[simp] theorem Expr.filterFree_at? {e : Expr} {l : Option Location} :
    (e.at? l).filterFree = e.filterFree := by
  obtain ⟨form, τ, place⟩ := e
  rw [at?, filterFree, filterFree]

@[simp] theorem Expr.filterFree_ofBool {b : Bool} : (ofBool b).filterFree = true := rfl

theorem Expr.filterFree_call {f : Builtin} {arg : Expr} {τ : StaticType} {l : Option Location} :
    Expr.filterFree ⟨.call f [arg], τ, l⟩ = arg.filterFree := by
  simp [filterFree, Form.filterFree, filterFreeAll]

/-! ### What decides a truth -/

/-- How deliveries decide a truth: a single atomic value by itself, a node in front as true, nothing
as false. -/
inductive Decides : List Delivery → Bool → Prop
  | nothing : Decides [] false
  | atomic {v : Atomic} {score : Option Number} : Decides [(.ok (.atomic v), score)] v.isTruthy
  | node {n : NodeId} {score : Option Number} {ds : List Delivery} :
    Decides ((.ok (.node n), score) :: ds) true

/-- Whether something is delivered first, and no failure before it. -/
inductive Begins : List Delivery → Bool → Prop
  | nothing : Begins [] false
  | item {x : Item} {score : Option Number} {ds : List Delivery} :
    Begins ((.ok x, score) :: ds) true

theorem Decides.unique {ds : List Delivery} {b b' : Bool} (h : Decides ds b) (h' : Decides ds b') :
    b = b' := by
  cases h <;> cases h' <;> rfl

theorem Begins.unique {ds : List Delivery} {b b' : Bool} (h : Begins ds b) (h' : Begins ds b') :
    b = b' := by
  cases h <;> cases h' <;> rfl

theorem Delivery.of_forget {d : Delivery} {x : Item} {score : Option Number}
    (h : d.forget = (some x, score)) : d = (.ok x, score) := by
  obtain ⟨outcome | y, score'⟩ := d
  · cases h
  · cases h
    rfl

theorem Decides.of_forget {ds ds' : List Delivery} {b : Bool} (h : Decides ds b)
    (heq : ds.map Delivery.forget = ds'.map Delivery.forget) : Decides ds' b := by
  cases h with
  | nothing =>
    obtain rfl := List.map_eq_nil_iff.mp heq.symm
    exact .nothing
  | atomic =>
    obtain ⟨d, rfl, hd⟩ := List.map_eq_singleton_iff.mp heq.symm
    obtain rfl := Delivery.of_forget hd
    exact .atomic
  | node =>
    obtain ⟨d, ds', rfl, hd, -⟩ := List.map_eq_cons_iff.mp heq.symm
    obtain rfl := Delivery.of_forget hd
    exact .node

namespace Cursor

variable {c : Cursor} {scoring : Bool} {l : Option Location} {b : Bool}

theorem exists_first? {x : Item} {score : Option Number} {ds : List Delivery}
    (h : c.deliveries scoring = (.ok x, score) :: ds) :
    ∃ rest, (c.first? scoring).Gives (some (x, rest)) ∧ rest.deliveries scoring = ds := by
  rw [deliveries_eq] at h
  rw [first?]
  rcases hpull : c.pull scoring with ⟨log, hint⟩ | ⟨log, e | y, score', rest⟩ <;>
    rw [hpull] at h <;>
    simp [Reply.deliveries] at h
  obtain ⟨⟨rfl, -⟩, rfl⟩ := h
  exact ⟨rest, rfl, rfl⟩

theorem first?_iff : (∃ first, (c.first? scoring).Gives first ∧ first.isSome = b) ↔
    Begins (c.deliveries scoring) b := by
  constructor
  · rintro ⟨_ | ⟨x, rest⟩, hfirst, rfl⟩
    · rw [first?_none_iff.mp hfirst]
      exact .nothing
    · obtain ⟨score, hds⟩ := first?_some_iff hfirst
      rw [hds]
      exact .item
  · intro h
    generalize hds : c.deliveries scoring = ds at h
    cases h with
    | nothing => exact ⟨none, first?_none_iff.mpr hds, rfl⟩
    | item =>
      obtain ⟨rest, hfirst, -⟩ := exists_first? hds
      exact ⟨_, hfirst, rfl⟩

theorem truth_iff : (c.truth scoring l).Gives b ↔ Decides (c.deliveries scoring) b := by
  constructor
  · intro h
    simp only [truth, Logged.gives_bind] at h
    obtain ⟨verdict, hverdict, h⟩ := h
    obtain ⟨rfl, hy⟩ | ⟨v, score, rfl, hy⟩ | ⟨n, score, rest, rfl, hd⟩ := decider_cases hverdict
    · rw [show c.deliveries scoring = [] from hy, ← Logged.gives_pure.mp h]
      exact .nothing
    · rw [show c.deliveries scoring = [(.ok (.atomic v), score)] from hy, ← Logged.gives_pure.mp h]
      exact .atomic
    · rw [hd, ← Logged.gives_pure.mp h]
      exact .node
  · intro h
    generalize hds : c.deliveries scoring = ds at h
    simp only [truth, decider, Logged.gives_bind]
    cases h with
    | nothing =>
      exact ⟨none, ⟨none, first?_none_iff.mpr hds, Logged.gives_pure.mpr rfl⟩,
        Logged.gives_pure.mpr rfl⟩
    | @atomic v =>
      obtain ⟨rest, hfirst, hrest⟩ := exists_first? hds
      refine ⟨some (.atomic v), ⟨_, hfirst, ?_⟩, Logged.gives_pure.mpr rfl⟩
      simp only [Logged.gives_bind, Logged.gives_locate, expectEnd_iff, Logged.gives_pure, and_true]
      exact ⟨(), hrest⟩
    | @node n =>
      obtain ⟨rest, hfirst, -⟩ := exists_first? hds
      exact ⟨some (.node n), ⟨_, hfirst, Logged.gives_pure.mpr rfl⟩, Logged.gives_pure.mpr rfl⟩

theorem deliveries_single (x : Item) : (single x).deliveries scoring = [(.ok x, none)] :=
  yields_ofList [x]

end Cursor

section

variable {call : Caller} {env : Env} {e arg : Expr} {b : Bool}

theorem Expr.truth_iff : (e.truth call env).Gives b ↔
    ∃ c, (e.iterate call env).Gives c ∧ Decides (c.deliveries env.scoring) b := by
  obtain ⟨form, τ, l⟩ := e
  simp only [truth, iterate, Logged.gives_bind, Logged.gives_locate, Cursor.truth_iff]

theorem Expr.truth_at? (hplace : call.IgnoresPlace) (l : Option Location)
    (h : (e.truth call env).Gives b) : ((e.at? l).truth call env).Gives b := by
  obtain ⟨form, τ, place⟩ := e
  obtain ⟨c, hc, hdecides⟩ := truth_iff.mp h
  have hc : (((⟨form, τ, l⟩ : Expr).at? place).iterate call env).Gives c := hc
  obtain ⟨c', hc', hsame⟩ := iterate_at? hplace hc
  exact truth_iff.mpr ⟨c', hc', hdecides.of_forget (hsame env.scoring)⟩

/-! ### Calls -/

def Builtin.measures : Builtin → Bool
  | .boolean | .not | .exists | .empty | .count => true
  | _ => false

def Builtin.Answers (call : Caller) (env : Env) (arg : Expr) : Builtin → Item → Prop
  | .boolean, x => ∃ b, (arg.truth call env).Gives b ∧ x = .atomic (.boolean b)
  | .not, x => ∃ b, (arg.truth call env).Gives b ∧ x = .atomic (.boolean !b)
  | .exists, x => ∃ b c, (arg.iterate call env).Gives c ∧ Begins (c.deliveries env.scoring) b ∧
    x = .atomic (.boolean b)
  | .empty, x => ∃ b c, (arg.iterate call env).Gives c ∧ Begins (c.deliveries env.scoring) b ∧
    x = .atomic (.boolean !b)
  | .count, x => ∃ c, (arg.iterate call env).Gives c ∧ Clean (c.deliveries env.scoring) ∧
      x = .atomic
        (.integer (min ((delivered (c.deliveries env.scoring)).length : Int) Atomic.maxInteger))
  | _, _ => False

theorem Cursor.count_iff {c : Cursor} {scoring : Bool} {n : Nat} : (c.count scoring).Gives n ↔
    Clean (c.deliveries scoring) ∧ n = (delivered (c.deliveries scoring)).length := by
  have hlength (entries : List (Item × Option Number)) (m : Nat) :
      entries.foldl (fun n _ => n + 1) m = m + entries.length := by
    induction entries generalizing m with
    | nil => rfl
    | cons entry entries ih =>
      rw [List.foldl_cons, ih, List.length_cons, Nat.add_right_comm, Nat.add_assoc]
  simp only [count, gives_fold_iff, hlength, Nat.zero_add]
  constructor
  · rintro ⟨entries, hentries, rfl⟩
    rw [Yields] at hentries
    simp [hentries]
  · rintro ⟨hclean, rfl⟩
    obtain ⟨entries, hentries, hitems⟩ := exists_yields_of_clean hclean
    exact ⟨entries, hentries, by rw [← hitems, List.length_map]⟩

theorem callBuiltin_iff {f : Builtin} (hf : f.measures = true) {args : List Expr} {c : Cursor} :
    (callBuiltin call env f (arg :: args)).Gives c ↔ ∃ x, f.Answers call env arg x ∧
    Cursor.single x = c := by
  have existence {g : Bool → Bool} :
      (∃ d, (arg.iterate call env).Gives d ∧ ∃ first, (d.first? env.scoring).Gives first ∧
        Cursor.ofBool (g first.isSome) = c) ↔
      ∃ x, (∃ b d, (arg.iterate call env).Gives d ∧ Begins (d.deliveries env.scoring) b ∧
        x = .atomic (.boolean (g b))) ∧
        Cursor.single x = c := by
    constructor
    · rintro ⟨d, hd, first, hfirst, rfl⟩
      exact ⟨_, ⟨_, d, hd, Cursor.first?_iff.mp ⟨first, hfirst, rfl⟩, rfl⟩, rfl⟩
    · rintro ⟨_, ⟨b, d, hd, hbegins, rfl⟩, rfl⟩
      obtain ⟨first, hfirst, rfl⟩ := Cursor.first?_iff.mpr hbegins
      exact ⟨d, hd, first, hfirst, rfl⟩
  cases f <;> simp only [Builtin.measures, Bool.false_eq_true] at hf <;>
    simp only [callBuiltin, Logged.gives_map, Logged.gives_bind, Logged.gives_pure, Builtin.Answers]
  case boolean | not =>
    constructor
    · rintro ⟨b, hb, rfl⟩
      exact ⟨_, ⟨b, hb, rfl⟩, rfl⟩
    · rintro ⟨_, ⟨b, hb, rfl⟩, rfl⟩
      exact ⟨b, hb, rfl⟩
  case «exists» => exact existence (g := id)
  case empty =>
    simp only [← Option.not_isSome]
    exact existence (g := not)
  case count =>
    constructor
    · rintro ⟨d, hd, n, hn, rfl⟩
      obtain ⟨hclean, rfl⟩ := Cursor.count_iff.mp hn
      exact ⟨_, ⟨d, hd, hclean, rfl⟩, rfl⟩
    · rintro ⟨_, ⟨d, hd, hclean, rfl⟩, rfl⟩
      exact ⟨d, hd, _, Cursor.count_iff.mpr ⟨hclean, rfl⟩, rfl⟩

def Item.truth? : Item → Option Bool
  | .node _ => some true
  | .atomic v => some v.isTruthy
  | .function _ => none

theorem Cursor.decides_single {x : Item} {scoring : Bool} :
    Decides ((single x).deliveries scoring) b ↔ x.truth? = some b := by
  rw [deliveries_single]
  constructor
  · intro h
    cases h <;> rfl
  · intro h
    cases x with
    | node n => exact Option.some.inj h ▸ .node
    | atomic v => exact Option.some.inj h ▸ .atomic
    | function f => cases h

theorem Expr.truth_call {f : Builtin} (hf : f.measures = true) {args : List Expr} {τ : StaticType}
    {l : Option Location} : (Expr.truth call env ⟨.call f (arg :: args), τ, l⟩).Gives b ↔
    ∃ x, f.Answers call env arg x ∧ x.truth? = some b := by
  simp only [truth_iff, iterate, Form.iterate, Logged.gives_locate, callBuiltin_iff hf]
  constructor
  · rintro ⟨c, ⟨x, hx, rfl⟩, hdecides⟩
    exact ⟨x, hx, Cursor.decides_single.mp hdecides⟩
  · rintro ⟨x, hx, htruth⟩
    exact ⟨_, ⟨x, hx, rfl⟩, Cursor.decides_single.mpr htruth⟩

theorem Expr.delivers_call {f : Builtin} (hf : f.measures = true) {args : List Expr}
    {τ : StaticType} {l : Option Location} {items : List Item} :
    Expr.Delivers call env ⟨.call f (arg :: args), τ, l⟩ items ↔ ∃ x, f.Answers call env arg x ∧
    items = [x] := by
  simp only [Delivers, iterate, Form.iterate, Logged.gives_locate, callBuiltin_iff hf]
  constructor
  · rintro ⟨c, ⟨x, hx, rfl⟩, -, rfl⟩
    exact ⟨x, hx, Cursor.delivered_ofList [x]⟩
  · rintro ⟨x, hx, rfl⟩
    exact ⟨_, ⟨x, hx, rfl⟩, Cursor.clean_ofList [x], Cursor.delivered_ofList [x]⟩

/-! ### Constants -/

theorem Expr.Delivers.of_literal {vs : List Atomic} (he : e.literalValues? = some vs)
    {items : List Item} (h : e.Delivers call env items) : items = vs.map .atomic := by
  obtain ⟨c, hc, -, rfl⟩ := h
  rw [← (iterate_literal he).unique hc, Cursor.delivered_ofList]

theorem Expr.constantTruth_eq {b' : Bool} (h : e.constantTruth = .ok b)
    (hb' : (e.truth call env).Gives b') : b' = b := by
  obtain ⟨form, τ, l⟩ := e
  obtain ⟨c, hc, hdecides⟩ := truth_iff.mp hb'
  unfold constantTruth at h
  split at h
  · next hform =>
    obtain rfl : form = .literal [] := hform
    obtain rfl := (iterate_literal rfl).unique hc
    exact hdecides.unique (Except.ok.inj h ▸ .nothing)
  · next v hform =>
    obtain rfl : form = .literal [v] := hform
    obtain rfl := (iterate_literal rfl).unique hc
    exact hdecides.unique (Except.ok.inj h ▸ .atomic)
  all_goals cases h

/-! ### Calls that are answered at once -/

theorem Decides.of_boolean {forest : Forest} {τ : StaticType} {ds : List Delivery}
    (h : Decides ds b) (hfits : τ.Fits forest (delivered ds) (Clean ds)) (hclean : Clean ds)
    (hone : τ.occurrence = .one) (hitem : τ.item = .atomic .boolean) :
    delivered ds = [.atomic (.boolean b)] := by
  cases h with
  | nothing => exact absurd (hone ▸ hfits.counts.min_le hclean) (by decide)
  | @atomic v =>
    have hinstance := hfits.item (.atomic v) List.mem_cons_self
    rw [hitem] at hinstance
    cases v <;> first | rfl | cases hinstance
  | @node n =>
    have hinstance := hfits.item (.node n) List.mem_cons_self
    rw [hitem] at hinstance
    cases hinstance

/-- Of `exists` and `empty` each is the negation of the other. -/
theorem Expr.delivers_negated {f g : Builtin}
    (hfg : f = .empty ∧ g = .exists ∨ f = .exists ∧ g = .empty) {args : List Expr} {τ : StaticType}
    {l : Option Location} (hb : (Expr.truth call env ⟨.call f args, τ, l⟩).Gives b)
    {items : List Item} (hitems : (Expr.call g args).Delivers call env items) :
    items = [.atomic (.boolean !b)] := by
  cases args with
  | nil =>
    obtain ⟨c, hc, -⟩ := truth_iff.mp hb
    obtain ⟨rfl, rfl⟩ | ⟨rfl, rfl⟩ := hfg <;> simp [iterate, Form.iterate, callBuiltin] at hc
  | cons arg args =>
    obtain ⟨rfl, rfl⟩ | ⟨rfl, rfl⟩ := hfg <;>
    · obtain ⟨_, ⟨b', c, hc, hbegins, rfl⟩, htruth⟩ := (truth_call rfl).mp hb
      obtain ⟨_, ⟨b'', d, hd, hbegins', rfl⟩, rfl⟩ := (delivers_call rfl).mp hitems
      obtain rfl := hc.unique hd
      obtain rfl := hbegins.unique hbegins'
      obtain rfl := Option.some.inj htruth
      simp [Atomic.isTruthy]

section Fold

variable {Γ : List Variable} {K : Knowledge} (hcall : call.Sound) (henv : env.Fits Γ K)
    (harg : arg.Annotated Γ K) {new : Expr}

include hcall henv harg

theorem Expr.fits_deliveries {c : Cursor} (hc : (arg.iterate call env).Gives c) :
    arg.type.Fits env.forest (delivered (c.deliveries env.scoring))
      (Clean (c.deliveries env.scoring)) :=
  Expr.iterate_fits hcall henv harg hc _ harg.infers env.scoring

/-- The first item tells of the size what the static type tells. -/
theorem foldExistence_eq {f : Builtin} (h : foldExistence f arg = some new) {c : Cursor}
    (hc : (arg.iterate call env).Gives c) {b : Bool} (hb : Begins (c.deliveries env.scoring) b) :
    new = .ofBool (b == (f == .exists)) := by
  have hcounts := (arg.fits_deliveries hcall henv harg hc).counts
  have hsize (n : Nat) (hn : arg.type.size = some n) : decide (0 < n) = b := by
    generalize c.deliveries env.scoring = ds at hb hcounts
    cases hb with
    | nothing =>
      obtain rfl : 0 = n := hcounts.eq_size trivial n hn
      rfl
    | item =>
      have := (hcounts.le_size n hn).1
      rw [delivered_ok, List.length_cons] at this
      exact decide_eq_true (Nat.lt_of_lt_of_le (Nat.succ_pos _) this)
  have hmin (hpos : 0 < arg.type.occurrence.min) : b = true := by
    generalize c.deliveries env.scoring = ds at hb hcounts
    cases hb with
    | nothing => exact absurd (hcounts.min_le trivial) (Nat.not_le.mpr hpos)
    | item => rfl
  obtain ⟨b', hb', rfl⟩ := Option.map_eq_some_iff.mp h
  split at hb'
  · next n hn => rw [← Option.some.inj hb', hsize n hn]
  · obtain ⟨hpos, hb'⟩ := Option.ite_none_right_eq_some.mp hb'
    rw [← Option.some.inj hb', hmin hpos]

theorem foldCall_answers {f : Builtin} (h : foldCall f arg = .ok (some new)) {x : Item}
    (hx : f.Answers call env arg x) {items : List Item} (hitems : new.Delivers call env items) :
    items = [x] := by
  have constant {g : Bool → Bool}
    (h : (arg.constantTruth.map fun b => some (Expr.ofBool (g b))) = .ok (some new))
      {b : Bool} (hb : (arg.truth call env).Gives b) : items = [.atomic (.boolean (g b))] := by
    obtain ⟨b', htruth, hnew⟩ := map_eq_ok.mp h
    obtain rfl : Expr.ofBool (g b') = new := Option.some.inj hnew
    rw [Expr.constantTruth_eq htruth hb]
    exact hitems.of_literal rfl
  cases f <;> simp only [foldCall] at h
  case boolean =>
    obtain ⟨b, hb, rfl⟩ := hx
    split at h
    · next htype =>
      obtain rfl : arg = new := by simpa using h
      simp only [Bool.and_eq_true, StaticType.isOne, beq_iff_eq] at htype
      obtain ⟨c, hc, hclean, rfl⟩ := hitems
      have hfits := arg.fits_deliveries hcall henv harg hc
      obtain ⟨d, hd, hdecides⟩ := Expr.truth_iff.mp hb
      obtain rfl := hc.unique hd
      exact hdecides.of_boolean hfits hclean htype.1 htype.2
    split at h
    · exact constant (g := id) h hb
    · simp at h
  case not =>
    obtain ⟨b, hb, rfl⟩ := hx
    split at h
    · exact constant h hb
    · obtain ⟨form, τ, l⟩ := arg
      split at h
      · next args hform =>
        obtain rfl : form = .call .empty args := hform
        obtain rfl : Expr.call .exists args = new := by simpa using h
        exact Expr.delivers_negated (.inl ⟨rfl, rfl⟩) hb hitems
      · next args hform =>
        obtain rfl : form = .call .exists args := hform
        obtain rfl : Expr.call .empty args = new := by simpa using h
        exact Expr.delivers_negated (.inr ⟨rfl, rfl⟩) hb hitems
      · simp at h
  case «exists» =>
    obtain ⟨b, c, hc, hbegins, rfl⟩ := hx
    split at h
    · simp at h
    · obtain rfl := foldExistence_eq hcall henv harg (Except.ok.inj h) hc hbegins
      simpa using hitems.of_literal rfl
  case empty =>
    obtain ⟨b, c, hc, hbegins, rfl⟩ := hx
    split at h
    · simp at h
    · obtain rfl := foldExistence_eq hcall henv harg (Except.ok.inj h) hc hbegins
      have hnot : (b == (Builtin.empty == .exists)) = !b := by cases b <;> rfl
      rw [← hnot]
      exact hitems.of_literal rfl
  case count =>
    obtain ⟨c, hc, hclean, rfl⟩ := hx
    split at h
    · simp at h
    · obtain ⟨n, hn, rfl⟩ := Option.map_eq_some_iff.mp (Except.ok.inj h)
      obtain ⟨hsize, hle⟩ := Option.filter_eq_some_iff.mp hn
      obtain ⟨m, hm, hmn⟩ := Option.bind_eq_some_iff.mp hsize
      obtain rfl : (m : Int) = n := Option.some.inj hmn
      rw [(arg.fits_deliveries hcall henv harg hc).counts.eq_size hclean m hm,
        Int.min_eq_left (of_decide_eq_true hle)]
      exact hitems.of_literal rfl
  all_goals simp at h

end Fold

/-! ### Simplification -/

section Simplify

variable {scope : Scope} {opt : Optimizer} {K : Knowledge} (hcall : call.Sound)
    (hplace : call.IgnoresPlace)
  (henv : env.Fits scope.visible K)

/-- Whether an optimizer puts something in the place of an expression without filters that is as
true, and without filters. -/
def Optimizer.KeepsTruth (call : Caller) (env : Env) (scope : Scope) (K : Knowledge)
    (opt : Optimizer) : Prop :=
  ∀ {e e' : Expr}, e.Annotated scope.visible K → e.filterFree = true →
    (opt.simplify .truth scope e).Gives e' →
    e'.filterFree = true ∧ ∀ b, (e.truth call env).Gives b → (e'.truth call env).Gives b

include hcall henv

theorem decides_of_begins (harg : arg.Annotated scope.visible K)
    (hnode : arg.type.item.isNode = true) {c : Cursor} (hc : (arg.iterate call env).Gives c)
    (h : Begins (c.deliveries env.scoring) b) : Decides (c.deliveries env.scoring) b := by
  have hfits := arg.fits_deliveries hcall henv harg hc
  generalize c.deliveries env.scoring = ds at h hfits
  cases h with
  | nothing => exact .nothing
  | @item x =>
    obtain ⟨n, rfl⟩ := Item.node_of_isInstance hnode (hfits.item x List.mem_cons_self)
    exact .node

omit hcall henv in
theorem begins_of_count {x : Item} (hx : Builtin.count.Answers call env arg x)
    (hb : x.truth? = some b) : ∃ c, (arg.iterate call env).Gives c ∧
    Begins (c.deliveries env.scoring) b := by
  obtain ⟨c, hc, hclean, rfl⟩ := hx
  simp only [Item.truth?, Atomic.isTruthy, Option.some.injEq] at hb
  have hpos : 0 < Atomic.maxInteger := by decide
  refine ⟨c, hc, ?_⟩
  generalize Atomic.maxInteger = m at hb hpos
  generalize c.deliveries env.scoring = ds at hclean hb
  obtain rfl := hb
  cases ds with
  | nil =>
    rw [delivered_nil, List.length_nil, Int.natCast_zero, Int.min_eq_left (Int.le_of_lt hpos)]
    exact .nothing
  | cons d ds =>
    obtain ⟨e | y, score⟩ := d
    · exact absurd hclean clean_error
    · have htrue : (min ((delivered ((.ok y, score) :: ds)).length : Int) m != 0) = true := by
        rw [delivered_ok, List.length_cons, bne_iff_ne]
        omega
      rw [htrue]
      exact .item

theorem optimizeCall_exists {l : Option Location} (harg : arg.Annotated scope.visible K)
    (h : (optimizeCall opt scope .exists [arg] l).Gives e) :
    (arg.filterFree = true → e.filterFree = true) ∧
      ∀ c, (arg.iterate call env).Gives c → ∀ b, Begins (c.deliveries env.scoring) b →
      (e.truth call env).Gives b := by
  obtain ⟨args', rfl | ⟨hnever, -⟩, h⟩ := optimizeCall_cases h
  · obtain ⟨rfl, -⟩ | ⟨arg', new, place, hone, hfold, rfl⟩ := h
    · exact ⟨Expr.filterFree_call.trans, fun c hc b hbegins =>
        (Expr.truth_call rfl).mpr ⟨_, ⟨b, c, hc, hbegins, rfl⟩, rfl⟩⟩
    · obtain rfl : arg = arg' := List.singleton_inj.mp hone
      simp only [foldCall] at hfold
      split at hfold
      · simp at hfold
      obtain ⟨b', -, rfl⟩ := Option.map_eq_some_iff.mp (Except.ok.inj hfold)
      refine ⟨fun _ => rfl, fun c hc b hbegins => ?_⟩
      rw [foldExistence_eq hcall henv harg (Except.ok.inj hfold) hc hbegins]
      have hsame : (b == (Builtin.exists == .exists)) = b := by cases b <;> rfl
      rw [hsame]
      exact Expr.truth_iff.mpr ⟨_, Expr.iterate_literal rfl, .atomic⟩
  · simp at hnever

/-- What takes the place of an expression of which only the truth counts is as true. -/
theorem simplerTruth_truth {e e' : Expr} (he : e.Annotated scope.visible K)
    (hfree : e.filterFree = true) (h : (simplerTruth opt .truth scope e).Gives (some e')) :
    e'.filterFree = true ∧ ∀ b, (e.truth call env).Gives b → (e'.truth call env).Gives b := by
  obtain ⟨form, τ, l⟩ := e
  have onlyArg {f : Builtin} {arg : Expr} (hform : form = .call f [arg]) :
      arg.Annotated scope.visible K ∧ arg.filterFree = true := by
    subst hform
    simp only [Expr.Annotated, Form.Annotated, AnnotatedAll] at he
    exact ⟨he.2.1, Expr.filterFree_call.symm.trans hfree⟩
  have counted {arg : Expr} (hform : form = .call .count [arg]) {b : Bool}
    (hb : (Expr.truth call env ⟨form, τ, l⟩).Gives b) :
      ∃ c, (arg.iterate call env).Gives c ∧ Begins (c.deliveries env.scoring) b := by
    subst hform
    obtain ⟨x, hx, htruth⟩ := (Expr.truth_call rfl).mp hb
    exact begins_of_count hx htruth
  obtain ⟨hform, -⟩ | ⟨hform | ⟨-, hform⟩, hnode⟩ | ⟨-, arg, hform, hexists⟩ |
      ⟨root, predicates, hform, -⟩ :=
    simplerTruth_cases h
  · obtain rfl : form = .call .boolean [e'] := hform
    refine ⟨(onlyArg rfl).2, fun b hb => ?_⟩
    obtain ⟨_, ⟨b', hb', rfl⟩, htruth⟩ := (Expr.truth_call rfl).mp hb
    exact Option.some.inj htruth ▸ hb'
  · obtain rfl : form = .call .exists [e'] := hform
    refine ⟨(onlyArg rfl).2, fun b hb => ?_⟩
    obtain ⟨_, ⟨b', c, hc, hbegins, rfl⟩, htruth⟩ := (Expr.truth_call rfl).mp hb
    obtain rfl := Option.some.inj htruth
    exact Expr.truth_iff.mpr ⟨c, hc, decides_of_begins hcall henv (onlyArg rfl).1 hnode hc hbegins⟩
  · refine ⟨(onlyArg hform).2, fun b hb => ?_⟩
    obtain ⟨c, hc, hbegins⟩ := counted hform hb
    exact Expr.truth_iff.mpr
      ⟨c, hc, decides_of_begins hcall henv (onlyArg hform).1 hnode hc hbegins⟩
  · obtain ⟨hkept, htruth⟩ := optimizeCall_exists hcall henv (onlyArg hform).1 hexists
    refine ⟨hkept (onlyArg hform).2, fun b hb => ?_⟩
    obtain ⟨c, hc, hbegins⟩ := counted hform hb
    exact htruth c hc b hbegins
  · obtain rfl : form = .filter root predicates := hform
    cases hfree

include hplace

theorem simplify_truth (hopt : opt.Sound) (hkeeps : opt.KeepsTruth call env scope K) {e e' : Expr}
    (he : e.Annotated scope.visible K) (hfree : e.filterFree = true)
    (h : (simplify opt .truth scope e).Gives e') :
    e'.filterFree = true ∧ ∀ b, (e.truth call env).Gives b → (e'.truth call env).Gives b := by
  obtain rfl | ⟨new, place, hnew, h⟩ := simplify_cases h
  · exact ⟨hfree, fun _ => id⟩
  · obtain ⟨hnewFree, hnewTruth⟩ := simplerTruth_truth hcall henv he hfree hnew
    have hann : (new.at? place).Annotated scope.visible K :=
      Expr.annotated_at?.mpr (simplerTruth_annotated hopt hnew he)
    obtain ⟨hfree', htruth'⟩ := hkeeps hann (Expr.filterFree_at?.trans hnewFree) h
    exact ⟨hfree', fun b hb => htruth' b (Expr.truth_at? hplace _ (hnewTruth b hb))⟩

theorem optimizerWithin_keepsTruth :
    (depth : Nat) → (optimizerWithin depth).KeepsTruth call env scope K
  | 0, _, _, _, _, h => absurd h Logged.gives_fail
  | depth + 1, _, _, he, hfree, h =>
    simplify_truth hcall hplace henv (optimizerWithin_sound depth)
      (optimizerWithin_keepsTruth depth) he hfree h

end Simplify

end

end TreeQuery
