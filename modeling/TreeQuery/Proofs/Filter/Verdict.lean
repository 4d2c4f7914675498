import TreeQuery.Proofs.Eval.Gist
import TreeQuery.Proofs.Filter.Recognition
import TreeQuery.Proofs.Filter.Sifting
/-!
# Verdicts of predicates

The verdict of a predicate is decided by what its cursor delivers (`Expr.holds_iff`), so that
expressions with resembling cursors have the same one. A predicate may take the place of another in
a list if it has the same verdict wherever the other one has any (`KeptInTurn.replace`). Where each
predicate of a list has one verdict on an item wherever the item stands (`Steady`), the items need
not be renumbered.
-/

namespace TreeQuery

variable {call : Caller} {env : Env} {e e' : Expr} {b b' : Bool}

/-! ### One predicate -/

theorem decidesAt_ofBool {position : Nat} {scoring x : Bool} :
    DecidesAt position ((Cursor.ofBool x).deliveries scoring) b ↔ x = b := by
  rw [Cursor.ofBool, Cursor.deliveries_single]
  refine ⟨fun h => ?_, ?_⟩
  · cases h with
    | number hv => cases hv
    | atomic hv => rfl
  · rintro rfl
    exact .atomic rfl

theorem toOption_eq_some_iff : {ds : List Delivery} → {items : List Item} →
    ((ds.map fun d => d.1.toOption) = items.map some ↔ Clean ds ∧ delivered ds = items)
  | [], [] => by simp
  | [], _ :: _ => by simp
  | (.error _, _) :: _, [] => by simp
  | (.error _, _) :: _, _ :: _ => by simp [Except.toOption]
  | (.ok _, _) :: _, [] => by simp
  | (.ok x, _) :: ds, y :: items => by
    rw [List.map_cons, List.map_cons, List.cons.injEq, toOption_eq_some_iff]
    simp only [Except.toOption, Option.some.injEq, clean_ok, delivered_ok, List.cons.injEq]
    tauto

namespace Expr

theorem holds_iff : e.Holds call env b ↔
    ∃ c, (e.iterate call env).Gives c ∧
    DecidesAt env.focus.position (c.deliveries env.scoring) b := by
  have decided (p : Bool) :
    (∃ verdict : Option Number, (if p then some Number.zero else none) = verdict ∧
    verdict.isSome = b) ↔
      p = b := by
    cases p <;> simp
  obtain ⟨form, τ, l⟩ := e
  by_cases hposition : ∃ w, form = .position w
  · obtain ⟨w, rfl⟩ := hposition
    simp only [Holds, test, iterate, Form.iterate, Logged.gives_pure, Logged.gives_locate, decided,
      exists_eq_left', decidesAt_ofBool]
  by_cases hsearch : ∃ input query, form = .containsText input query
  · obtain ⟨input, query, rfl⟩ := hsearch
    simp only [Holds, test, iterate, Form.iterate, Logged.gives_bind, Logged.gives_pure,
      Logged.gives_locate]
    constructor
    · rintro ⟨verdict, ⟨m, hm, rfl⟩, rfl⟩
      refine ⟨_, ⟨m, hm, rfl⟩, decidesAt_ofBool.mpr ?_⟩
      cases m.found <;> rfl
    · rintro ⟨_, ⟨m, hm, rfl⟩, h⟩
      refine ⟨_, ⟨m, hm, rfl⟩, ?_⟩
      rw [← decidesAt_ofBool.mp h]
      cases m.found <;> rfl
  rw [Holds, test_of_other (fun w h => hposition ⟨w, h⟩)
    (fun input query h => hsearch ⟨input, query, h⟩)]
  simp only [iterate, Logged.gives_bind, Logged.gives_locate, Logged.gives_pure,
    Cursor.predicateTruth_iff]
  constructor
  · rintro ⟨verdict, ⟨c, hc, p, hp, hverdict⟩, hb⟩
    obtain rfl := (decided p).mp ⟨verdict, hverdict, hb⟩
    exact ⟨c, hc, hp⟩
  · rintro ⟨c, hc, h⟩
    obtain ⟨verdict, hverdict, hb⟩ := (decided b).mpr rfl
    exact ⟨verdict, ⟨c, hc, b, h, hverdict⟩, hb⟩

theorem Holds.of_alike (h : e.Holds call env b)
    (halike : (e.iterate call env).Alike Cursor.Resembles (e'.iterate call env)) :
    e'.Holds call env b := by
  obtain ⟨c, hc, hdecides⟩ := holds_iff.mp h
  obtain ⟨c', hc', hsame⟩ := halike.exists_gives hc
  exact holds_iff.mpr ⟨c', hc', hdecides.of_items (hsame.toOption env.scoring)⟩

/-- Predicates that differ in nothing that evaluation looks at have the same verdict. -/
theorem Holds.of_gist_eq (hplace : call.IgnoresPlace) (h : e.Holds call env b)
    (heq : e.form.gist = e'.form.gist) : e'.Holds call env b :=
  h.of_alike (iterate_of_gist_eq hplace heq env)

theorem holds_at? (hplace : call.IgnoresPlace) {l : Option Location} :
    (e.at? l).Holds call env b ↔ e.Holds call env b :=
  ⟨fun h => h.of_gist_eq hplace rfl, fun h => h.of_gist_eq hplace rfl⟩

theorem Delivers.holds_iff {items : List Item} (h : e.Delivers call env items) :
    e.Holds call env b ↔ DecidesAt env.focus.position
      (items.map fun item => (.ok item, none)) b := by
  obtain ⟨c, hc, hclean, rfl⟩ := h
  have hitems : ((c.deliveries env.scoring).map fun d => d.1.toOption) =
      ((delivered (c.deliveries env.scoring)).map fun item => ((.ok item, none) : Delivery)).map
        fun d => d.1.toOption := by
    rw [toOption_eq_some_iff.mpr ⟨hclean, rfl⟩, List.map_map]
    rfl
  rw [Expr.holds_iff]
  constructor
  · rintro ⟨c', hc', hdecides⟩
    obtain rfl := hc.unique hc'
    exact hdecides.of_items hitems
  · exact fun hdecides => ⟨c, hc, hdecides.of_items hitems.symm⟩

theorem Delivers.holds_boolean (h : e.Delivers call env [.atomic (.boolean b')]) :
    e.Holds call env b ↔ b = b' := by
  rw [h.holds_iff]
  refine ⟨fun hdecides => hdecides.unique (.atomic rfl), ?_⟩
  rintro rfl
  exact .atomic rfl

theorem Delivers.holds_node {n : NodeId} (h : e.Delivers call env [.node n]) :
    e.Holds call env b ↔ b = true := by
  rw [h.holds_iff]
  refine ⟨fun hdecides => hdecides.unique .node, ?_⟩
  rintro rfl
  exact .node

theorem delivers_literal {vs : List Atomic} (he : e.form = .literal vs) :
    e.Delivers call env (vs.map .atomic) :=
  ⟨_, iterate_literal (literalValues?_eq_some.mpr he), Cursor.clean_ofList _,
    Cursor.delivered_ofList _⟩

theorem holds_ofBool {l : Option Location} {x : Bool} :
    ((Expr.ofBool x).at? l).Holds call env b ↔ b = x :=
  (@delivers_literal _ _ _ [.boolean x] rfl).holds_boolean

theorem holds_empty {l : Option Location} : (Expr.empty.at? l).Holds call env b ↔ b = false := by
  rw [(@delivers_literal _ _ _ [] rfl).holds_iff]
  refine ⟨fun hdecides => hdecides.unique .nothing, ?_⟩
  rintro rfl
  exact .nothing

theorem holds_window {w : Window} (he : e.window? = some w) :
    e.Holds call env b ↔ b = w.contains env.focus.position := by
  obtain ⟨τ, l, rfl⟩ := eq_of_window? he
  rw [Holds, test]
  cases w.contains env.focus.position <;> simp [eq_comm]

theorem holds_ofPositionTest {l : Option Location} {test : PositionTest} :
    ((Expr.ofPositionTest test).at? l).Holds call env b ↔ b = test.holdsAt env.focus.position := by
  cases test with
  | within w => exact holds_window rfl
  | never => exact holds_ofBool

theorem Holds.of_number {x : Number} (h : e.Holds call env b) (he : e.number? = some x)
    (h1 : 1 ≤ env.focus.position) (hp : env.focus.position ≤ memoryLimit) :
    b = (Window.atNumber x).holdsAt env.focus.position := by
  refine h.unique ⟨_, test_number he, ?_⟩
  rw [same_ofInt_position h1 hp]
  cases (Window.atNumber x).holdsAt env.focus.position <;> rfl

theorem Holds.of_constant (h : e.Holds call env b) (hnumber : e.number? = none)
    (hconstant : e.constantTruth = .ok b') : b = b' := by
  unfold constantTruth at hconstant
  split at hconstant
  · next hform =>
    obtain rfl := Except.ok.inj hconstant
    rw [(delivers_literal hform).holds_iff] at h
    exact h.unique .nothing
  · next v hform =>
    obtain rfl := Except.ok.inj hconstant
    rw [(delivers_literal hform).holds_iff] at h
    refine h.unique (.atomic ?_)
    simpa only [number?, hform] using hnumber
  all_goals cases hconstant

end Expr

/-! ### Places -/

/-- The environments in which a predicate judges an item: it stands at one of the places of a list
of at most `most` items. -/
def Env.Seats (env : Env) (most : Nat) (item : Item) (env' : Env) : Prop :=
  ∃ size position, env' = env.focusOn (some size) env.scoring position item ∧ 1 ≤ position ∧
    position ≤ size ∧ size ≤ most

namespace Env.Seats

variable {most most' : Nat} {item : Item} {env' : Env}

theorem mono (h : env.Seats most item env') (hle : most ≤ most') : env.Seats most' item env' := by
  obtain ⟨size, position, rfl, h1, hp, hsize⟩ := h
  exact ⟨size, position, rfl, h1, hp, hsize.trans hle⟩

theorem focus_item (h : env.Seats most item env') : env'.focus.item = some item := by
  obtain ⟨size, position, rfl, -⟩ := h
  rfl

theorem one_le (h : env.Seats most item env') : 1 ≤ env'.focus.position := by
  obtain ⟨size, position, rfl, h1, -⟩ := h
  exact h1

theorem le (h : env.Seats most item env') : env'.focus.position ≤ most := by
  obtain ⟨size, position, rfl, -, hp, hsize⟩ := h
  exact hp.trans hsize

theorem fits {Γ : List Variable} {K L : Knowledge} (h : env.Seats most item env')
    (henv : env.Fits Γ K) (hitem : L.Holds env.forest item ∧ item.Good) : env'.Fits Γ L := by
  obtain ⟨size, position, rfl, -⟩ := h
  exact henv.focusOn hitem

end Env.Seats

/-- Predicates give an item one verdict after the other, each the same at every place, until one is
false. -/
def Steady (call : Caller) (env : Env) (most : Nat) : List Expr → Item → Bool → Prop
  | [], _, b => b = true
  | e :: es, item, b => (∀ env', env.Seats most item env' → e.Holds call env' true) ∧
    Steady call env most es item b ∨
      (∀ env', env.Seats most item env' → e.Holds call env' false) ∧ b = false

/-- Whether a predicate has every verdict that another one has on certain items, wherever they
stand. -/
def Supplants (call : Caller) (env : Env) (most : Nat) (P : Item → Prop) (e e' : Expr) : Prop :=
  ∀ item, P item → ∀ env', env.Seats most item env' → ∀ b, e.Holds call env' b →
    e'.Holds call env' b

section

variable {most most' : Nat} {item : Item} {es fs : List Expr} {P Q : Item → Prop}

theorem Steady.anti (hle : most' ≤ most) :
    {es : List Expr} → {b : Bool} → Steady call env most es item b →
    Steady call env most' es item b
  | [], _, h => h
  | _ :: _, _, .inl ⟨htrue, h⟩ => .inl ⟨fun env' henv' => htrue env' (henv'.mono hle), h.anti hle⟩
  | _ :: _, _, .inr ⟨hfalse, hb⟩ => .inr ⟨fun env' henv' => hfalse env' (henv'.mono hle), hb⟩

theorem steady_append : (es : List Expr) → {b : Bool} → (Steady call env most (es ++ fs) item b ↔
    Steady call env most es item true ∧ Steady call env most fs item b ∨
    Steady call env most es item false ∧ b = false)
  | [], b => by simp [Steady]
  | e :: es, b => by
    simp only [List.cons_append, Steady, steady_append es]
    tauto

theorem Supplants.refl (e : Expr) : Supplants call env most P e e := fun _ _ _ _ _ h => h

theorem Supplants.trans {e'' : Expr} (h : Supplants call env most P e e')
    (h' : Supplants call env most P e' e'') : Supplants call env most P e e'' :=
  fun item hitem env' henv' b hb => h' item hitem env' henv' b (h item hitem env' henv' b hb)

theorem Supplants.anti (h : Supplants call env most P e e') (hle : most' ≤ most)
    (himp : ∀ item, Q item → P item) : Supplants call env most' Q e e' :=
  fun item hitem env' henv' => h item (himp item hitem) env' (henv'.mono hle)

end

/-! ### Lists -/

namespace Sifted

variable {α : Type} {judge judge' : Nat → α → Bool → Prop} {alone alone' : α → Bool → Prop}
    {pos pos' : Nat}
  {as passed kept : List α}

theorem imp_places (h : Sifted judge pos as kept)
    (himp : ∀ a ∈ as, ∀ i, pos < i → i ≤ pos + as.length → ∀ b, judge i a b → judge' i a b) :
    Sifted judge' pos as kept := by
  induction h with
  | nil => exact .nil
  | keep hjudge _ ih =>
    refine .keep (himp _ List.mem_cons_self _ (by omega) (by simp) _ hjudge)
      (ih fun a ha i hi hle b hb => ?_)
    exact himp a (List.mem_cons_of_mem _ ha) i (by omega)
      (by simp only [List.length_cons]; omega) b hb
  | drop hjudge _ ih =>
    refine .drop (himp _ List.mem_cons_self _ (by omega) (by simp) _ hjudge)
      (ih fun a ha i hi hle b hb => ?_)
    exact himp a (List.mem_cons_of_mem _ ha) i (by omega)
      (by simp only [List.length_cons]; omega) b hb

/-- Where places do not matter, two judgements in turn are one. -/
theorem join (h : Sifted (fun _ => alone) pos as passed)
    (h' : Sifted (fun _ => alone') pos' passed kept) :
    Sifted (fun _ a b => alone a true ∧ alone' a b ∨ alone a false ∧ b = false) pos as kept := by
  induction h generalizing pos' kept with
  | nil =>
    cases h'
    exact .nil
  | keep hjudge _ ih =>
    cases h' with
    | keep hjudge' h' => exact .keep (.inl ⟨hjudge, hjudge'⟩) (ih h')
    | drop hjudge' h' => exact .drop (.inl ⟨hjudge, hjudge'⟩) (ih h')
  | drop hjudge _ ih => exact .drop (.inr ⟨hjudge, rfl⟩) (ih h')

theorem filter {p : α → Bool} (h : Sifted (fun _ => alone) pos as kept)
    (hp : ∀ a ∈ as, ∀ b, alone a b → p a = true ∧ alone' a b ∨ p a = false ∧ b = false) :
    Sifted (fun _ => alone') pos' (as.filter p) kept := by
  induction h generalizing pos' with
  | nil => exact .nil
  | keep hjudge _ ih =>
    obtain ⟨ha, hb⟩ | ⟨-, hb⟩ := hp _ List.mem_cons_self _ hjudge
    · rw [List.filter_cons_of_pos ha]
      exact .keep hb (ih fun a ha => hp a (List.mem_cons_of_mem _ ha))
    · cases hb
  | drop hjudge _ ih =>
    obtain ⟨ha, hb⟩ | ⟨ha, -⟩ := hp _ List.mem_cons_self _ hjudge
    · rw [List.filter_cons_of_pos ha]
      exact .drop hb (ih fun a ha => hp a (List.mem_cons_of_mem _ ha))
    · rw [List.filter_cons_of_neg (by simp [ha])]
      exact ih fun a ha => hp a (List.mem_cons_of_mem _ ha)

theorem judged (h : Sifted judge pos as kept) :
    ∀ a ∈ kept, ∃ i, pos < i ∧ i ≤ pos + as.length ∧ judge i a true := by
  induction h with
  | nil => exact fun _ ha => absurd ha List.not_mem_nil
  | keep hjudge _ ih =>
    intro a ha
    obtain rfl | ha := List.mem_cons.mp ha
    · exact ⟨_, by omega, by simp, hjudge⟩
    · obtain ⟨i, hi, hle, h⟩ := ih a ha
      exact ⟨i, by omega, by simp only [List.length_cons]; omega, h⟩
  | drop _ _ ih =>
    intro a ha
    obtain ⟨i, hi, hle, h⟩ := ih a ha
    exact ⟨i, by omega, by simp only [List.length_cons]; omega, h⟩

theorem of_true : (as : List α) → {pos : Nat} → Sifted (fun _ _ b => b = true) pos as as
  | [], _ => .nil
  | _ :: as, _ => .keep rfl (of_true as)

/-- Of copies of an element all are kept exactly if the judgement is true wherever one stands. -/
theorem replicate_iff {a : α} {n : Nat} :
    Sifted judge pos (List.replicate n a) (List.replicate n a) ↔
    ∀ i, pos < i → i ≤ pos + n → judge i a true := by
  induction n generalizing pos with
  | zero => exact ⟨fun _ i hi hle => absurd hle (by omega), fun _ => .nil⟩
  | succ n ih =>
    rw [List.replicate_succ]
    constructor
    · intro h i hi hle
      cases h with
      | keep htrue h =>
        obtain rfl | hi := Nat.eq_or_lt_of_le (Nat.succ_le_of_lt hi)
        · exact htrue
        · exact ih.mp h i hi (by omega)
      | drop _ h => exact absurd h.sublist.length_le (by simp)
    · exact fun h => .keep (h _ (by omega) (by omega))
        (ih.mpr fun i hi hle => h i (by omega) (by omega))

theorem eq_nil_of_false (h : Sifted (fun _ _ b => b = false) pos as kept) : kept = [] := by
  induction h with
  | nil => rfl
  | keep htrue => cases htrue
  | drop _ _ ih => exact ih

end Sifted

section

variable {most : Nat} {es fs : List Expr} {items kept : List Item}

theorem keptInTurn_single : KeptInTurn call env [e] items kept ↔
    Sifted (fun position item => e.Holds call
      (env.focusOn (some items.length) env.scoring position item)) 0 items kept := by
  simp [KeptInTurn]

theorem keptInTurn_cons (e : Expr) (es : List Expr) : KeptInTurn call env (e :: es) items kept ↔
    ∃ passed, KeptInTurn call env [e] items passed ∧ KeptInTurn call env es passed kept := by
  simp only [keptInTurn_single]
  rfl

theorem keptInTurn_append : (es : List Expr) → {items : List Item} →
    (KeptInTurn call env (es ++ fs) items kept ↔
    ∃ passed, KeptInTurn call env es items passed ∧ KeptInTurn call env fs passed kept)
  | [], items => by simp [KeptInTurn]
  | e :: es, items => by
    rw [List.cons_append, keptInTurn_cons]
    simp only [keptInTurn_cons e es, keptInTurn_append es]
    tauto

theorem Sifted.keepScored {judge : Nat → Nat → Item → Run (Option Number)} {size : Nat} :
    (items : List (Item × Number)) →
    {pos : Nat} → {kept : List Item} →
    Sifted (fun position item b => ∃ verdict, (judge size position item).Gives verdict ∧
      verdict.isSome = b) pos (itemsOf items) kept →
    ∃ scored, (keepScored judge size pos items).Gives scored ∧ itemsOf scored = kept
  | [], _, _, .nil => ⟨[], rfl, rfl⟩
  | (item, total) :: rest, pos, _, .keep ⟨some score, hverdict, _⟩ h => by
    obtain ⟨scored, hscored, rfl⟩ := h.keepScored rest
    refine ⟨(item, total.add .double score) :: scored, ?_, rfl⟩
    simp only [TreeQuery.keepScored, Logged.gives_bind]
    exact ⟨_, hverdict, _, hscored, rfl⟩
  | (item, total) :: rest, pos, _, .drop ⟨none, hverdict, _⟩ h => by
    obtain ⟨scored, hscored, rfl⟩ := h.keepScored rest
    refine ⟨scored, ?_, rfl⟩
    simp only [TreeQuery.keepScored, Logged.gives_bind]
    exact ⟨_, hverdict, _, hscored, rfl⟩

namespace KeptInTurn

theorem sifted {alone : Item → Bool → Prop} (h : KeptInTurn call env [e] items kept)
    (himp : ∀ item ∈ items, ∀ env', env.Seats items.length item env' → ∀ b, e.Holds call env' b →
      alone item b) : Sifted (fun _ => alone) 0 items kept :=
  (keptInTurn_single.mp h).imp_places fun item hitem i hi hle b hb =>
    himp item hitem _ ⟨_, i, rfl, hi, by omega, le_rfl⟩ b hb

/-- A predicate may give way to one that has its verdicts. -/
theorem supplant (h : KeptInTurn call env [e] items kept)
    (hsupplants : Supplants call env items.length (· ∈ items) e e') :
    KeptInTurn call env [e'] items kept :=
  keptInTurn_single.mpr <| (keptInTurn_single.mp h).imp_places fun item hitem i hi hle b hb =>
    hsupplants item hitem _ ⟨_, i, rfl, hi, by omega, le_rfl⟩ b hb

theorem of_steady : (es : List Expr) → {items : List Item} → {pos : Nat} →
    Sifted (fun _ => Steady call env most es) pos items kept → items.length ≤ most →
    KeptInTurn call env es items kept
  | [], _, _, h, _ => h.eq_of_true
  | e :: es, items, pos, h, hle => by
    obtain ⟨passed, hpassed, hkept⟩ :=
      @Sifted.split _ (fun _ item b => ∀ env', env.Seats most item env' → e.Holds call env' b) _ _ _
        (Steady call env most es) h
    refine ⟨passed, ?_, of_steady es (hkept 0) (hpassed.sublist.length_le.trans hle)⟩
    have hpassed : Sifted (fun _ item b => ∀ env', env.Seats most item env' → e.Holds call env' b)
        0 items passed :=
      hpassed.imp fun _ _ _ _ hb => hb
    exact hpassed.imp_places fun item _ i hi hi' b hb => hb _ ⟨_, i, rfl, hi, by omega, hle⟩

theorem replicate_iff {item : Item} {es : List Expr} :
    (∀ n ≤ most, KeptInTurn call env es (List.replicate n item) (List.replicate n item)) ↔
      Steady call env most es item true := by
  induction es with
  | nil => simp [KeptInTurn, Steady]
  | cons e es ih =>
    simp only [Steady, Bool.true_eq_false, and_false, or_false, ← ih, keptInTurn_cons e es]
    constructor
    · intro h
      have hcopies (n : Nat) (hle : n ≤ most) :
          KeptInTurn call env [e] (List.replicate n item) (List.replicate n item) ∧
            KeptInTurn call env es (List.replicate n item) (List.replicate n item) := by
        obtain ⟨passed, hpassed, hkept⟩ := h n hle
        obtain rfl : passed = List.replicate n item :=
          hpassed.sublist.eq_of_length_le hkept.sublist.length_le
        exact ⟨hpassed, hkept⟩
      refine ⟨?_, fun n hle => (hcopies n hle).2⟩
      rintro _ ⟨size, position, rfl, hone, hposition, hle⟩
      have hfirst := keptInTurn_single.mp (hcopies size hle).1
      rw [List.length_replicate] at hfirst
      exact Sifted.replicate_iff.mp hfirst position hone (by omega)
    · rintro ⟨htrue, h⟩ n hle
      refine ⟨_, keptInTurn_single.mpr (Sifted.replicate_iff.mpr fun i hi hi' => ?_), h n hle⟩
      exact htrue _ ⟨n, i, by rw [List.length_replicate], hi, by omega, hle⟩

theorem mem {item : Item} : {es : List Expr} → {items : List Item} →
    KeptInTurn call env es items kept → items.length ≤ most →
    Steady call env most es item true → item ∈ items → item ∈ kept
  | [], _, h, _, _, hitem => h ▸ hitem
  | e :: es, items, ⟨passed, hpassed, hkept⟩, hle, hsteady, hitem => by
    obtain ⟨htrue, hsteady⟩ | ⟨-, hfalse⟩ := hsteady
    · refine hkept.mem (hpassed.sublist.length_le.trans hle) hsteady
        (hpassed.mem hitem fun i hi hi' hfalse => ?_)
      have := (htrue _ ⟨items.length, i, rfl, hi, by omega, hle⟩).unique hfalse
      cases this
    · cases hfalse

/-- A predicate may give way to several that come to its verdicts, or to none if it is always
true. -/
theorem expand (h : KeptInTurn call env [e] items kept)
    (hsteady : ∀ item ∈ items, ∀ env', env.Seats items.length item env' → ∀ b, e.Holds call env' b →
      Steady call env items.length es item b) : KeptInTurn call env es items kept :=
  of_steady es (h.sifted hsteady) le_rfl

theorem steady (hc : call.IgnoresFocus) :
    {es : List Expr} → {items : List Item} → (∀ e ∈ es, e.isPositional = false) →
    (∀ item ∈ items, SoundOn call env es item) → KeptInTurn call env es items kept →
    Sifted (fun _ => Steady call env most es) 0 items kept
  | [], items, _, _, h => by
    obtain rfl : kept = items := h
    exact Sifted.of_true kept
  | e :: es, items, hes, sound, h => by
    obtain ⟨passed, hpassed, hkept⟩ := (keptInTurn_cons _ _).mp h
    have hfirst : Sifted (fun _ item b => ∀ env', env.Seats most item env' → e.Holds call env' b)
        0 items passed :=
      hpassed.sifted (by
        rintro item hitem _ ⟨size, position, rfl, -⟩ b hb _ ⟨size', position', rfl, -⟩
        exact hb.anywhere hc (hes e List.mem_cons_self) (sound item hitem e List.mem_cons_self _ _))
    have hrest := hkept.steady hc (fun e he => hes e (List.mem_cons_of_mem _ he))
      fun item hitem => (sound item (hpassed.sublist.subset hitem)).tail
    exact hfirst.join hrest

/-- What is kept passes each of the predicates, and wherever it stands if that is not positional. -/
theorem holds (hc : call.IgnoresFocus) :
    {es : List Expr} → {items : List Item} → KeptInTurn call env es items kept → e ∈ es →
    e.isPositional = false → (∀ item ∈ items, SoundOn call env es item) →
    ∀ item ∈ kept, ∀ env', env.Seats most item env' →
      e.Holds call env' true
  | [], _, _, he, _, _ => absurd he List.not_mem_nil
  | f :: es, items, h, he, hpositional, sound => by
    obtain ⟨passed, hpassed, hkept⟩ := (keptInTurn_cons _ _).mp h
    intro item hitem env' henv'
    have hsub := hpassed.sublist.subset
    obtain rfl | he := List.mem_cons.mp he
    · obtain ⟨i, -, -, hi⟩ :=
        (keptInTurn_single.mp hpassed).judged item (hkept.sublist.subset hitem)
      obtain ⟨size, position, rfl, -⟩ := henv'
      exact hi.anywhere hc hpositional
        (sound item (hsub (hkept.sublist.subset hitem)) e List.mem_cons_self _ _)
    · exact hkept.holds hc he hpositional (fun item hitem => (sound item (hsub hitem)).tail) item
        hitem env' henv'

/-- Filtering in turn comes to what is kept, whatever the scores are. -/
theorem gives : (es : List Expr) → {items : List (Item × Number)} →
    KeptInTurn call env es (itemsOf items) kept →
    ∃ scored, (filterInTurn call env items es).Gives scored ∧ itemsOf scored = kept
  | [], items, h => ⟨items, rfl, h.symm⟩
  | e :: es, items, ⟨passed, hpassed, hkept⟩ => by
    rw [List.length_map] at hpassed
    obtain ⟨scored, hscored, rfl⟩ := @Sifted.keepScored
      (fun size position item => e.test call (env.focusOn (some size) env.scoring position item))
        items.length items 0 passed hpassed
    obtain ⟨last, hlast, hitems⟩ := KeptInTurn.gives es hkept
    refine ⟨last, ?_, hitems⟩
    simp only [filterInTurn, Logged.gives_bind]
    exact ⟨_, hscored, hlast⟩

end KeptInTurn

end

end TreeQuery
