import TreeQuery.Expr.Inline
import TreeQuery.Proofs.Eval.Focus
import TreeQuery.Proofs.Outcome
import TreeQuery.Proofs.Typing.Soundness
/-!
# Substitution for the context item

Where the context item is a single value, its references can be replaced by the value. The runtime
asks for static types at one place only, whether the root of a path may be many items, and there a
context item and the value differ; but no step leads on from a value, so that both fail. They need
not fail at the same moment: one run may end without a cursor where the cursor of the other fails at
the first pull. Nothing comes of either (`ComesToNothing`), whatever it is part of. So with the
value in place of the context item expressions start alike (`Expr.iterate_replaced`) and end alike
(`Expr.value_replaced`), and what is replaced are the references that share the focus of the whole
(`Expr.mentionsContext_iff`).
-/

namespace TreeQuery

/-! ### Ending alike -/

def Failure.code? : Failure → Option ExpandedName
  | .error e => some e.code
  | .aborted => none

@[simp] theorem Failure.code?_locate (f : Failure) (l : Option Location) :
    (f.locate l).code? = f.code? := by
  cases f <;> rfl

variable {α β : Type} {code : Option ExpandedName}

namespace Logged

variable {ω : Type}

/-- The computation fails with an error of this code, or at a limit if there is none. -/
def FailsWith (code : Option ExpandedName) (x : Logged ω α) : Prop :=
  ∃ f, x.Fails f ∧ f.code? = code

/-- The computations have one answer, or fail with one code. -/
def EndsAlike (x y : Logged ω α) : Prop := x.Matches (fun f g => f.code? = g.code?) Eq y

theorem FailsWith.bind {x : Logged ω α} (h : x.FailsWith code) (k : α → Logged ω β) :
    (x >>= k).FailsWith code := by
  obtain ⟨f, hf, hcode⟩ := h
  exact ⟨f, fails_bind.mpr (.inl hf), hcode⟩

theorem FailsWith.after {x : Logged ω α} {a : α} (hx : x.Gives a) {k : α → Logged ω β}
    (h : (k a).FailsWith code) : (x >>= k).FailsWith code := by
  obtain ⟨f, hf, hcode⟩ := h
  exact ⟨f, fails_bind.mpr (.inr ⟨a, hx, hf⟩), hcode⟩

theorem FailsWith.locate {x : Logged ω α} (h : x.FailsWith code) (l : Option Location) :
    (x.locate l).FailsWith code := by
  obtain ⟨f, hf, hcode⟩ := h
  refine ⟨f.locate l, ?_, by rw [Failure.code?_locate, hcode]⟩
  unfold Fails at hf
  simp only [Logged.locate, Fails, hf]

namespace EndsAlike

variable {x y : Logged ω α}

theorem of_outcome_eq (h : x.outcome = y.outcome) : x.EndsAlike y :=
  Matches.of_outcome_eq (fun _ => rfl) h

theorem refl (x : Logged ω α) : x.EndsAlike x := of_outcome_eq rfl

theorem of_failsWith (hx : x.FailsWith code) (hy : y.FailsWith code) : x.EndsAlike y := by
  obtain ⟨f, hf, hcode⟩ := hx
  obtain ⟨g, hg, hcode'⟩ := hy
  exact .fails hf hg (hcode.trans hcode'.symm)

theorem bind {k l : α → Logged ω β} (h : x.EndsAlike y) (hkl : ∀ a, (k a).EndsAlike (l a)) :
    (x >>= k).EndsAlike (y >>= l) :=
  Matches.bind h (by
    rintro a _ rfl
    exact hkl a)

theorem map (h : x.EndsAlike y) (g : α → β) : (g <$> x).EndsAlike (g <$> y) := by
  rw [← bind_pure_comp, ← bind_pure_comp]
  exact h.bind fun a => refl _

end EndsAlike

end Logged

open Logged (FailsWith EndsAlike)

/-! ### Cursors of which nothing comes -/

def Cursor.FailsFirst (code : Option ExpandedName) (c : Cursor) : Prop :=
  ∀ scoring, ∃ log f score rest, c.pull scoring = .yielded log
    (.error f) score rest ∧ f.code? = code

/-- The run fails, or its cursor does before it delivers an item. -/
inductive ComesToNothing (code : Option ExpandedName) (x : Run Cursor) : Prop
  | fails (h : x.FailsWith code)
  | gives {c : Cursor} (h : x.Gives c) (hc : c.FailsFirst code)

/-- The runs have one cursor or failure, or nothing comes of either for one reason. -/
def StartsAlike (x y : Run Cursor) : Prop :=
  x.outcome = y.outcome ∨ ∃ code, ComesToNothing code x ∧ ComesToNothing code y

namespace Cursor.FailsFirst

variable {c : Cursor}

theorem fold (h : c.FailsFirst code) (scoring : Bool) (step : β → Item → Option Number → Run β)
    (b : β) : (c.fold scoring step b).FailsWith code := by
  obtain ⟨log, f, score, rest, hpull, hcode⟩ := h scoring
  exact ⟨f, by rw [Cursor.fold, hpull]; rfl, hcode⟩

theorem first? (h : c.FailsFirst code) (scoring : Bool) : (c.first? scoring).FailsWith code := by
  obtain ⟨log, f, score, rest, hpull, hcode⟩ := h scoring
  exact ⟨f, by rw [Cursor.first?, hpull]; rfl, hcode⟩

theorem drain (h : c.FailsFirst code) (scoring : Bool) : (c.drain scoring).FailsWith code :=
  (h.fold scoring _ _).bind _

theorem drainScored (h : c.FailsFirst code) (scoring : Bool) :
    (c.drainScored scoring).FailsWith code := (h.fold scoring _ _).bind _

theorem truth (h : c.FailsFirst code) (scoring : Bool) (l : Option Location) :
    (c.truth scoring l).FailsWith code :=
  ((h.first? scoring).bind _).bind _

theorem chain (h : c.FailsFirst code) (link : Link) (pos : Nat) :
    (c.chain link pos).FailsFirst code := by
  obtain ⟨hint, pull⟩ := c
  intro scoring
  obtain ⟨log, f, score, rest, hpull, hcode⟩ := h scoring
  exact ⟨log, f, none, _, by
    show (pull scoring).chain link pos scoring = _
    rw [show pull scoring = _ from hpull, Reply.chain], hcode⟩

theorem select (h : c.FailsFirst code) (judge : Judgement) (pos : Nat) :
    (c.select judge pos).FailsFirst code := by
  obtain ⟨hint, pull⟩ := c
  intro scoring
  obtain ⟨log, f, score, rest, hpull, hcode⟩ := h scoring
  exact ⟨_, f, none, _, by
    show (pull scoring).select judge pos scoring [] = _
    rw [show pull scoring = _ from hpull, Reply.select], hcode⟩

theorem window (h : c.FailsFirst code) (w : Window) (judge : Judgement) :
    (c.window w judge 0).FailsFirst code := by
  obtain ⟨hint, pull⟩ := c
  intro scoring
  obtain ⟨log, f, score, rest, hpull, hcode⟩ := h scoring
  have hlast : 0 < w.last := Nat.lt_of_lt_of_le w.one_le_first w.first_le_last
  exact ⟨_, f, none, _, by
    show (if 0 < w.last then (pull scoring).window w judge 0 scoring [] else _) = _
    rw [if_pos hlast, show pull scoring = _ from hpull, Reply.window], hcode⟩

theorem check (h : c.FailsFirst code) (t : TypeCheck) (forest : Forest) (count : Nat) :
    (c.check t forest count).FailsFirst code := by
  obtain ⟨hint, pull⟩ := c
  intro scoring
  obtain ⟨log, f, score, rest, hpull, hcode⟩ := h scoring
  exact ⟨log, f, none, _, by
    show (pull scoring).check t forest count = _
    rw [show pull scoring = _ from hpull, Reply.check], hcode⟩

end Cursor.FailsFirst

namespace ComesToNothing

variable {x : Run Cursor}

theorem of_failsFirst {c : Cursor} (h : c.FailsFirst code) : ComesToNothing code (pure c) :=
  .gives rfl h

theorem locate (h : ComesToNothing code x) (l : Option Location) :
    ComesToNothing code (x.locate l) := by
  cases h with
  | fails h => exact .fails (h.locate l)
  | gives h hc => exact .gives (Logged.gives_locate.mpr h) hc

theorem after {x : Run α} {a : α} (hx : x.Gives a) {k : α → Run Cursor}
    (h : ComesToNothing code (k a)) : ComesToNothing code (x >>= k) := by
  cases h with
  | fails h => exact .fails (h.after hx)
  | gives h hc => exact .gives (Logged.gives_bind.mpr ⟨a, hx, h⟩) hc

theorem bind (h : ComesToNothing code x) {k : Cursor → Run Cursor}
    (hk : ∀ c, c.FailsFirst code → ComesToNothing code (k c)) : ComesToNothing code (x >>= k) := by
  cases h with
  | fails h => exact .fails (h.bind k)
  | gives h hc => exact .after h (hk _ hc)

theorem consume (h : ComesToNothing code x) {k : Cursor → Run β}
    (hk : ∀ c, c.FailsFirst code → (k c).FailsWith code) : (x >>= k).FailsWith code := by
  cases h with
  | fails h => exact h.bind k
  | gives h hc => exact .after h (hk _ hc)

end ComesToNothing

namespace StartsAlike

variable {x y : Run Cursor}

theorem refl (x : Run Cursor) : StartsAlike x x := .inl rfl

theorem locate (h : StartsAlike x y) (l : Option Location) :
    StartsAlike (x.locate l) (y.locate l) := by
  rcases h with h | ⟨code, hx, hy⟩
  · left
    simp only [Logged.locate, h]
  · exact .inr ⟨code, hx.locate l, hy.locate l⟩

theorem of_endsAlike (h : x.EndsAlike y) : StartsAlike x y := by
  cases h with
  | fails hx hy h => exact .inr ⟨_, .fails ⟨_, hx, rfl⟩, .fails ⟨_, hy, h.symm⟩⟩
  | gives hx hy h => exact .inl (hx.trans (h ▸ hy.symm))

theorem bind (h : StartsAlike x y) {k : Cursor → Run Cursor}
    (hk : ∀ {code c}, Cursor.FailsFirst code c → ComesToNothing code (k c)) :
    StartsAlike (x >>= k) (y >>= k) := by
  rcases h with h | ⟨code, hx, hy⟩
  · left
    rw [Logged.outcome_bind, Logged.outcome_bind, h]
  · exact .inr ⟨code, hx.bind fun _ => hk, hy.bind fun _ => hk⟩

theorem consume (h : StartsAlike x y) {k : Cursor → Run β}
    (hk : ∀ {code c}, Cursor.FailsFirst code c → (k c).FailsWith code) :
    (x >>= k).EndsAlike (y >>= k) := by
  rcases h with h | ⟨code, hx, hy⟩
  · exact .of_outcome_eq (by rw [Logged.outcome_bind, Logged.outcome_bind, h])
  · exact .of_failsWith (hx.consume fun _ => hk) (hy.consume fun _ => hk)

theorem after {x y : Run α} {k l : α → Run Cursor} (h : x.EndsAlike y)
    (hkl : ∀ a, StartsAlike (k a) (l a)) : StartsAlike (x >>= k) (y >>= l) := by
  cases h with
  | fails hx hy h =>
    exact .inr ⟨_, .fails (FailsWith.bind ⟨_, hx, rfl⟩ k),
      .fails (FailsWith.bind ⟨_, hy, h.symm⟩ l)⟩
  | @gives a b hx hy h =>
    subst h
    rcases hkl a with hkl | ⟨code, hk, hl⟩
    · left
      rw [Logged.outcome_bind, Logged.outcome_bind, show x.outcome = _ from hx,
        show y.outcome = _ from hy]
      exact hkl
    · exact .inr ⟨code, .after hx hk, .after hy hl⟩

end StartsAlike

/-! ### Operands with a focus of their own -/

section

variable {call : Caller} {env : Env} {c : Cursor}

theorem Cursor.FailsFirst.follow (h : c.FailsFirst code) (operand : Expr) (nodesOnly : Bool)
    (iterate : Env → Run Cursor) :
    ComesToNothing code (c.follow env operand nodesOnly iterate) := by
  by_cases hposition : operand.dependsOn .position = true
  · simp only [Cursor.follow, hposition, if_true]
    exact .fails ((h.drain env.scoring).bind _)
  · simp only [Cursor.follow, hposition, Bool.false_eq_true, if_false]
    exact .of_failsFirst (h.chain _ 0)

theorem Cursor.FailsFirst.filterBy (h : c.FailsFirst code) (predicates : List Expr)
    (mean : Env → Run (Option Number))
    (inTurn : List (Item × Number) → Run (List (Item × Number))) :
    ComesToNothing code (c.filterBy env predicates mean inTurn) := by
  unfold Cursor.filterBy
  dsimp only
  split
  · exact .of_failsFirst h
  split
  · exact .of_failsFirst (h.select _ 0)
  split
  · exact .of_failsFirst (h.window _ _)
  · exact .fails ((h.drain env.scoring).bind _)

theorem ComesToNothing.followSteps {step : Expr} {steps : List Expr} (atMostOne : Bool)
    (h : ComesToNothing code (c.follow env step true fun env => step.iterate call env))
    (hsteps : ∀ {c : Cursor}, c.FailsFirst code →
      ∀ atMostOne, ComesToNothing code (followSteps call env c atMostOne steps)) :
    ComesToNothing code (followSteps call env c atMostOne (step :: steps)) := by
  rw [TreeQuery.followSteps]
  refine h.bind fun c hc => ?_
  split
  · exact hsteps hc _
  · exact .fails ((hc.drain env.scoring).bind _)

theorem Cursor.FailsFirst.followSteps :
    (steps : List Expr) → {c : Cursor} → c.FailsFirst code → (atMostOne : Bool) →
    ComesToNothing code (followSteps call env c atMostOne steps)
  | [], _, h, _ => .of_failsFirst h
  | step :: steps, _, h, atMostOne =>
    (h.follow step true _).followSteps atMostOne (followSteps steps)

theorem Cursor.FailsFirst.followMaps : (operands : List Expr) → {c : Cursor} → c.FailsFirst code →
    ComesToNothing code (followMaps call env c operands)
  | [], _, h => .of_failsFirst h
  | operand :: operands, c, h => by
    rw [TreeQuery.followMaps]
    exact (h.follow operand false _).bind fun c hc => followMaps operands hc

theorem Cursor.failsFirst_chain_single {item : Item} {link : Link} {f : Failure}
    (h : link.accept item = .error f) (hcode : f.code? = code) :
    ((Cursor.single item).chain link 0).FailsFirst code := by
  intro scoring
  refine ⟨[], f, none, (Cursor.finished (.exactly 1)).chain link 0, ?_, hcode⟩
  show Reply.chain link 0 scoring (.yielded [] (.ok item) none _) = _
  rw [Reply.chain, h]
  rfl

theorem followSteps_atomic (v : Atomic) {steps : List Expr} (h : steps ≠ []) (atMostOne : Bool) :
    ComesToNothing (some ErrorCode.typeMismatch.name)
      (followSteps call env (.single (.atomic v)) atMostOne steps) := by
  obtain ⟨step, steps, rfl⟩ := List.exists_cons_of_ne_nil h
  have hreject : admitNode step.location (.atomic v) =
      .error ((Failure.of (.pathOnOther (Item.atomic v).render)).locate step.location) := rfl
  have hfollow : ComesToNothing (some ErrorCode.typeMismatch.name)
      ((Cursor.single (.atomic v)).follow env step true fun env => step.iterate call env) := by
    by_cases hposition : step.dependsOn .position = true
    · simp only [Cursor.follow, hposition, if_true]
      have hdrain : ((Cursor.single (.atomic v)).drain env.scoring).Gives [.atomic v] := rfl
      exact .after hdrain (.of_failsFirst (Cursor.failsFirst_chain_single hreject rfl))
    · simp only [Cursor.follow, hposition, Bool.false_eq_true, if_false]
      exact .of_failsFirst (Cursor.failsFirst_chain_single hreject rfl)
  exact hfollow.followSteps atMostOne (Cursor.FailsFirst.followSteps steps)

end

/-! ### Expressions -/

theorem Form.replaceContext_ne_check (value : Expr) (form : Form)
    (h : ∀ operand target promote, form ≠ .check operand target promote) (operand : Expr)
    (target : SeqType) (promote : Bool) :
    form.replaceContext value ≠ .check operand target promote := by
  cases form
  case check => exact absurd rfl (h _ _ _)
  case map operands => cases operands <;>
    simp only [Form.replaceContext, ne_eq, reduceCtorEq, not_false_eq_true]
  all_goals simp only [Form.replaceContext, ne_eq, reduceCtorEq, not_false_eq_true]

theorem Form.iterate_contextItem {call : Caller} {env : Env} {l : Option Location} {item : Item}
    (hitem : env.focus.item = some item) :
    Form.contextItem.iterate call env l = pure (.single item) := by
  rw [Form.iterate, Env.contextItem, hitem]
  rfl

section

variable {call : Caller} {env : Env} {value : Expr} {v : Atomic}
    (hvalue : value.form = .literal [v])
  (hitem : env.focus.item = some (.atomic v))

include hvalue hitem

/-- A reference to the context item and the value in its place start alike, and other expressions do
if their forms do. -/
theorem Expr.replaceContext_starts {form : Form} {l : Option Location} (τ : StaticType)
    (h : StartsAlike ((form.replaceContext value).iterate call env l) (form.iterate call env l)) :
    ∃ form' τ', (⟨form, τ, l⟩ : Expr).replaceContext value = ⟨form', τ', l⟩ ∧
      StartsAlike (form'.iterate call env l) (form.iterate call env l) ∧
      ((∀ operand target promote, form ≠ .check operand target promote) →
        ∀ operand target promote, form' ≠ .check operand target promote) := by
  by_cases hform : form = .contextItem
  · obtain ⟨valueForm, τ', l'⟩ := value
    obtain rfl : valueForm = .literal [v] := hvalue
    subst hform
    refine ⟨.literal [v], τ', rfl, .inl ?_, fun _ => nofun⟩
    rw [Form.iterate_contextItem hitem, Form.iterate]
    rfl
  · refine ⟨form.replaceContext value, τ, ?_, h, fun hcheck => ?_⟩
    · rw [Expr.replaceContext]
      exact hform
    · exact form.replaceContext_ne_check value hcheck

/-- A path starts alike with another root that starts alike. The static type of the root decides
when nodes are put in order; only where the root is the context item itself may it be another one,
and then it makes no difference but to the moment of the failure. -/
theorem Form.iterate_path_replaced {root : Expr}
    (h : StartsAlike ((root.replaceContext value).iterate call env) (root.iterate call env))
    (steps : List Expr) (l : Option Location) :
    StartsAlike ((Form.path (root.replaceContext value) steps).iterate call env l)
      ((Form.path root steps).iterate call env l) := by
  obtain ⟨form, τ, place⟩ := root
  simp only [Form.iterate]
  by_cases hform : form = .contextItem
  · subst hform
    by_cases hsteps : steps = []
    · subst hsteps
      exact h.bind fun hc => .of_failsFirst hc
    · obtain ⟨valueForm, τ', place'⟩ := value
      obtain rfl : valueForm = .literal [v] := hvalue
      have hroot : Expr.iterate call env ⟨.contextItem, τ, place⟩ = pure (.single (.atomic v)) := by
        rw [Expr.iterate, Form.iterate_contextItem hitem]
        rfl
      have hroot' : Expr.iterate call env ⟨.literal [v], τ', place⟩ = pure
          (.single (.atomic v)) := by
        rw [Expr.iterate, Form.iterate]
        rfl
      simp only [Expr.replaceContext, Expr.at?, hroot, hroot', Logged.pure_bind]
      exact .inr ⟨_, followSteps_atomic v hsteps _, followSteps_atomic v hsteps _⟩
  · have htype : ((⟨form, τ, place⟩ : Expr).replaceContext value).type = τ := by
      rw [Expr.replaceContext]
      exact hform
    rw [htype]
    exact h.bind fun hc => hc.followSteps steps _

/-! By recursion on the expression: what is evaluated in the focus of the whole is replaced, and all
else is the same. -/

omit hvalue hitem

mutual

theorem Expr.iterate_replaced (hvalue : value.form = .literal [v])
    (hitem : env.focus.item = some (.atomic v)) : (e : Expr) →
    StartsAlike ((e.replaceContext value).iterate call env) (e.iterate call env)
  | ⟨form, τ, l⟩ => by
    obtain ⟨form', τ', he, h, -⟩ :=
      Expr.replaceContext_starts hvalue hitem τ (Form.iterate_replaced hvalue hitem form l)
    rw [he, Expr.iterate, Expr.iterate]
    exact h.locate l

theorem Expr.value_replaced (hvalue : value.form = .literal [v])
    (hitem : env.focus.item = some (.atomic v)) :
    (e : Expr) → ((e.replaceContext value).value call env).EndsAlike (e.value call env)
  | ⟨form, τ, l⟩ => by
    obtain ⟨form', τ', he, h, hcheck⟩ :=
      Expr.replaceContext_starts hvalue hitem τ (Form.iterate_replaced hvalue hitem form l)
    cases form with
    | check operand target promote =>
      simp only [Expr.replaceContext, Form.replaceContext, Expr.value]
      exact (Expr.value_replaced hvalue hitem operand).bind fun _ => .refl _
    | _ =>
      rw [he, Expr.value_of_not_check (hcheck nofun), Expr.value_of_not_check]
      · exact (h.locate l).consume fun hc => hc.drain env.scoring
      · nofun

theorem Expr.truth_replaced (hvalue : value.form = .literal [v])
    (hitem : env.focus.item = some (.atomic v)) :
    (e : Expr) → ((e.replaceContext value).truth call env).EndsAlike (e.truth call env)
  | ⟨form, τ, l⟩ => by
    obtain ⟨form', τ', he, h, -⟩ :=
      Expr.replaceContext_starts hvalue hitem τ (Form.iterate_replaced hvalue hitem form l)
    rw [he, Expr.truth, Expr.truth]
    exact (h.locate l).consume fun hc => hc.truth env.scoring l

theorem Form.iterate_replaced (hvalue : value.form = .literal [v])
    (hitem : env.focus.item = some (.atomic v)) : (form : Form) → (l : Option Location) →
    StartsAlike ((form.replaceContext value).iterate call env l) (form.iterate call env l)
  | .literal _, _ | .function _, _ | .contextItem, _ | .position _, _ | .step ..,
    _ | .relativePath _, _ | .map [], _
  | .reference _, _ | .failure _, _ => .refl _
  | .conjunction operands, _ => by
    simp only [Form.replaceContext, Form.iterate]
    exact .of_endsAlike ((allTrue_replaced hvalue hitem operands).map Cursor.ofBool)
  | .disjunction operands, _ => by
    simp only [Form.replaceContext, Form.iterate]
    exact .of_endsAlike ((anyTrue_replaced hvalue hitem operands).map Cursor.ofBool)
  | .comparison style op left right, _ => by
    simp only [Form.replaceContext, Form.iterate]
    refine .of_endsAlike ((Expr.value_replaced hvalue hitem left).bind fun _ =>
      .bind (.refl _) fun _ => ?_)
    exact (Expr.value_replaced hvalue hitem right).bind fun _ => .refl _
  | .call f args, _ => by
    simp only [Form.replaceContext, Form.iterate]
    exact callBuiltin_replaced hvalue hitem f args
  | .path root steps, l => by
    rw [Form.replaceContext]
    exact Form.iterate_path_replaced hvalue hitem (Expr.iterate_replaced hvalue hitem root) steps l
  | .map (first :: rest), _ => by
    simp only [Form.replaceContext, Form.iterate]
    exact (Expr.iterate_replaced hvalue hitem first).bind fun hc => hc.followMaps rest
  | .filter root predicates, _ => by
    simp only [Form.replaceContext, Form.iterate]
    exact (Expr.iterate_replaced hvalue hitem root).bind fun hc => hc.filterBy predicates _ _
  | .containsText input query, _ => by
    simp only [Form.replaceContext, Form.iterate, Env.search]
    refine .of_endsAlike (.bind (.bind (.refl _) fun matcher => ?_) fun _ => .refl _)
    refine (Expr.value_replaced hvalue hitem query).bind fun items =>
      .bind (.refl _) fun words => ?_
    exact (Expr.iterate_replaced hvalue hitem input).consume fun hc => hc.fold env.scoring _ _
  | .conditional condition yes no, _ => by
    simp only [Form.replaceContext, Form.iterate]
    refine .after (Expr.truth_replaced hvalue hitem condition) fun b => ?_
    split
    · exact Expr.iterate_replaced hvalue hitem yes
    · exact Expr.iterate_replaced hvalue hitem no
  | .apply f args, _ => by
    simp only [Form.replaceContext, Form.iterate]
    refine .of_endsAlike ((Expr.value_replaced hvalue hitem f).bind fun items => ?_)
    split
    · exact (valuesOf_replaced hvalue hitem args).bind fun _ => .refl _
    · exact .refl _
  | .check operand target promote, _ => by
    simp only [Form.replaceContext, Form.iterate]
    exact (Expr.iterate_replaced hvalue hitem operand).bind fun hc =>
      .of_failsFirst (hc.check _ _ _)

theorem callBuiltin_replaced (hvalue : value.form = .literal [v])
    (hitem : env.focus.item = some (.atomic v)) (f : Builtin) : (args : List Expr) →
    StartsAlike (callBuiltin call env f (replaceContextAll value args))
      (callBuiltin call env f args)
  | [] => .refl _
  | arg :: args => by
    rw [replaceContextAll]
    cases f with
    | position | last => exact .refl _
    | boolean => exact .of_endsAlike ((Expr.truth_replaced hvalue hitem arg).map Cursor.ofBool)
    | not => exact .of_endsAlike ((Expr.truth_replaced hvalue hitem arg).bind fun _ => .refl _)
    | «exists» | empty =>
      exact .of_endsAlike ((Expr.iterate_replaced hvalue hitem arg).consume fun hc =>
        (hc.first? env.scoring).bind _)
    | count =>
      exact .of_endsAlike ((Expr.iterate_replaced hvalue hitem arg).consume fun hc =>
        (hc.fold env.scoring _ _).bind _)
    | trace =>
      simp only [callBuiltin]
      exact .of_endsAlike ((Expr.value_replaced hvalue hitem arg).bind fun _ =>
        (labelOf_replaced hvalue hitem args).bind fun _ => .refl _)

theorem labelOf_replaced (hvalue : value.form = .literal [v])
    (hitem : env.focus.item = some (.atomic v)) :
    (es : List Expr) → (labelOf call env (replaceContextAll value es)).EndsAlike
      (labelOf call env es)
  | [] => .refl _
  | e :: _ => (Expr.value_replaced hvalue hitem e).bind fun _ => .refl _

theorem allTrue_replaced (hvalue : value.form = .literal [v])
    (hitem : env.focus.item = some (.atomic v)) :
    (es : List Expr) → (allTrue call env (replaceContextAll value es)).EndsAlike
      (allTrue call env es)
  | [] => .refl _
  | e :: es => by
    simp only [replaceContextAll, allTrue]
    refine (Expr.truth_replaced hvalue hitem e).bind fun b => ?_
    split
    · exact allTrue_replaced hvalue hitem es
    · exact .refl _

theorem anyTrue_replaced (hvalue : value.form = .literal [v])
    (hitem : env.focus.item = some (.atomic v)) :
    (es : List Expr) → (anyTrue call env (replaceContextAll value es)).EndsAlike
      (anyTrue call env es)
  | [] => .refl _
  | e :: es => by
    simp only [replaceContextAll, anyTrue]
    refine (Expr.truth_replaced hvalue hitem e).bind fun b => ?_
    split
    · exact .refl _
    · exact anyTrue_replaced hvalue hitem es

theorem valuesOf_replaced (hvalue : value.form = .literal [v])
    (hitem : env.focus.item = some (.atomic v)) : (es : List Expr) →
    (valuesOf call env (replaceContextAll value es)).EndsAlike (valuesOf call env es)
  | [] => .refl _
  | e :: es => (Expr.value_replaced hvalue hitem e).bind fun _ =>
    (valuesOf_replaced hvalue hitem es).bind fun _ => .refl _

end

end

/-! ### References of the own focus -/

/-- Whether an expression is the given one or an operand of it, at any depth, that is evaluated in
its focus (`Point.Enters.operand`). -/
def Expr.SharesFocus : Expr → Expr → Prop := Relation.ReflTransGen fun e d => d ∈ e.form.operands

theorem anyMentionsContext_iff :
    (es : List Expr) → (anyMentionsContext es = true ↔ ∃ e ∈ es, e.mentionsContext = true)
  | [] => by simp [anyMentionsContext]
  | e :: es => by
    rw [anyMentionsContext, Bool.or_eq_true, anyMentionsContext_iff es]
    simp

theorem Form.mentionsContext_iff (form : Form) :
    form.mentionsContext = true ↔ form = .contextItem ∨
    ∃ e ∈ form.operands, e.mentionsContext = true := by
  cases form
  case map operands => cases operands <;> simp [Form.mentionsContext, Form.operands]
  all_goals simp [Form.mentionsContext, Form.operands, anyMentionsContext_iff, or_assoc]

theorem Expr.sizeOf_operand {e d : Expr} (h : d ∈ e.form.operands) : sizeOf d < sizeOf e := by
  obtain ⟨form, τ, l⟩ := e
  cases form
  case conjunction es | disjunction es | call f es =>
    have hmem : sizeOf d < sizeOf es := List.sizeOf_lt_of_mem h
    simp
    omega
  case apply f args =>
    rcases List.mem_cons.mp h with rfl | h
    · simp
      omega
    · have hmem : sizeOf d < sizeOf args := List.sizeOf_lt_of_mem h
      simp
      omega
  case comparison | containsText =>
    simp only [Form.operands, List.mem_cons, List.not_mem_nil, or_false] at h
    rcases h with rfl | rfl <;> simp <;> omega
  case conditional =>
    simp only [Form.operands, List.mem_cons, List.not_mem_nil, or_false] at h
    rcases h with rfl | rfl | rfl <;> simp <;> omega
  case path | filter | check =>
    obtain rfl := List.mem_singleton.mp h
    simp
    omega
  case map operands =>
    cases operands with
    | nil => exact absurd h List.not_mem_nil
    | cons first rest =>
      obtain rfl := List.mem_singleton.mp h
      simp
      omega
  all_goals exact absurd h List.not_mem_nil

theorem Expr.sharesFocus_contextItem :
    (e : Expr) → e.mentionsContext = true → ∃ d, e.SharesFocus d ∧ d.form = .contextItem
  | ⟨form, τ, l⟩, h => by
    rw [Expr.mentionsContext, Form.mentionsContext_iff] at h
    rcases h with rfl | ⟨e, he, h⟩
    · exact ⟨_, .refl, rfl⟩
    · obtain ⟨d, hd, hform⟩ := sharesFocus_contextItem e h
      exact ⟨d, .head he hd, hform⟩
termination_by e => sizeOf e
decreasing_by exact Expr.sizeOf_operand he

/-- An expression mentions the context item if a reference to it shares its focus. -/
theorem Expr.mentionsContext_iff (e : Expr) :
    e.mentionsContext = true ↔ ∃ d, e.SharesFocus d ∧ d.form = .contextItem := by
  refine ⟨e.sharesFocus_contextItem, ?_⟩
  rintro ⟨d, hd, hform⟩
  induction hd using Relation.ReflTransGen.head_induction_on with
  | refl =>
    obtain ⟨form, τ, l⟩ := d
    exact (Form.mentionsContext_iff form).mpr (.inl hform)
  | @head e b h _ ih =>
    obtain ⟨form, τ, l⟩ := e
    exact (Form.mentionsContext_iff form).mpr (.inr ⟨b, h, ih⟩)

/-- Putting a value for the context item changes nothing where the context item is that value: the
expression has the same value, or fails with the same code. It is not done if and only if no
reference to the context item shares the focus of the expression. -/
theorem Expr.inlineContext_substitutes (call : Caller) (env : Env) (e value : Expr) {v : Atomic}
    (hvalue : value.form = .literal [v]) (hitem : env.focus.item = some (.atomic v)) :
    (∀ e', e.inlineContext? value = some e' →
      (e'.value call env).EndsAlike (e.value call env) ∧
      (e'.drained call env).EndsAlike (e.drained call env) ∧
      (e'.iterate call env >>= (·.drainScored env.scoring)).EndsAlike
        (e.iterate call env >>= (·.drainScored env.scoring))) ∧
    (e.inlineContext? value = none ↔ ∀ d, e.SharesFocus d → d.form ≠ .contextItem) := by
  unfold inlineContext?
  refine ⟨fun e' h => ?_, ?_⟩
  · obtain ⟨-, h⟩ := Option.ite_none_right_eq_some.mp h
    obtain rfl := Option.some.inj h
    have hstarts : StartsAlike ((e.replaceContext value).iterate call env) (e.iterate call env) :=
      Expr.iterate_replaced hvalue hitem e
    exact ⟨Expr.value_replaced hvalue hitem e, hstarts.consume fun hc => hc.drain env.scoring,
      hstarts.consume fun hc => hc.drainScored env.scoring⟩
  · simp only [ite_eq_right_iff, reduceCtorEq, imp_false, Expr.mentionsContext_iff,
      not_exists, not_and, ne_eq]

/-- A condition and the root of a filter are in the focus of the whole, and so is the root of the
path in the branch that is not taken; the predicate of the filter is not, and its reference
stays. -/
theorem Expr.inlineContext_substitutes_filter :
    let item : Expr := ⟨.contextItem, .of .any .zeroOrMore, none⟩
    let same (e : Expr) : Expr := .of (.comparison .value .eq e (.ofBool true))
    let branches (e : Expr) : Expr := .of (.conditional (same e) (.of (.filter e [same item]))
      (.of (.path e [.of (.step .child ⟨none, none⟩ [])])))
    let env : Env := (Env.ofContext { forest := .empty false }).focusOn none false 1
      (.atomic (.boolean true))
    (branches item).inlineContext? (.ofBool true) = some (branches (.ofBool true)) ∧
    ((branches (.ofBool true)).value (callWithin 0) env).EndsAlike
      ((branches item).value (callWithin 0) env) ∧
    ((branches item).value (callWithin 0) env).Gives [.atomic (.boolean true)] ∧
    (same item).inlineContext? (.ofBool true) ≠ none := by
  intro item same branches env
  have inlined : (branches item).inlineContext? (.ofBool true) = some
    (branches (.ofBool true)) := rfl
  have substitutes (e : Expr) :=
    Expr.inlineContext_substitutes (callWithin 0) env e (.ofBool true) rfl rfl
  refine ⟨inlined, ((substitutes _).1 _ inlined).1, rfl, fun h => ?_⟩
  exact (substitutes (same item)).2.mp h item (.single List.mem_cons_self) rfl

end TreeQuery
