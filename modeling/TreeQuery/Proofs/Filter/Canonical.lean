import TreeQuery.Proofs.Filter.Truths
/-!
# The canonical list keeps the same items

While the canonical list is built, the predicates that are in it and those that are still to come
keep the same items in turn as before. A predicate that is the same as one in the list is true of
all that this one has left, as long as none of both is positional.
-/

namespace TreeQuery

variable {call : Caller} {env : Env} {e e' : Expr} {es : List Expr}
    {items kept : List Item} {b : Bool}

/-! ### Lists of predicates -/

section

variable {P : Item → Prop}

/-- One predicate of a list may give way to others that keep what it keeps of the items that come to
it. -/
theorem KeptInTurn.change (fs gs : List Expr) (h : KeptInTurn call env (fs ++ e :: es) items kept)
    (hstep : ∀ passed next, KeptInTurn call env fs items passed →
      KeptInTurn call env [e] passed next →
      KeptInTurn call env gs passed next) : KeptInTurn call env (fs ++ (gs ++ es)) items kept := by
  obtain ⟨passed, hpassed, hkept⟩ := (keptInTurn_append fs).mp h
  obtain ⟨next, hnext, hlast⟩ := (keptInTurn_cons e es).mp hkept
  exact (keptInTurn_append fs).mpr
    ⟨passed, hpassed, (keptInTurn_append gs).mpr ⟨next, hstep passed next hpassed hnext, hlast⟩⟩

theorem KeptInTurn.replace (fs : List Expr) (h : KeptInTurn call env (fs ++ e :: es) items kept)
    (hitems : ∀ item ∈ items, P item) (hsupplants : Supplants call env items.length P e e') :
    KeptInTurn call env (fs ++ e' :: es) items kept :=
  h.change fs [e'] fun _ _ hpassed hnext =>
    hnext.supplant (hsupplants.anti hpassed.sublist.length_le fun item hitem =>
      hitems item (hpassed.sublist.subset hitem))

theorem KeptInTurn.spread (fs gs : List Expr) (h : KeptInTurn call env (fs ++ e :: es) items kept)
    (hsteady : ∀ item ∈ items, ∀ env', env.Seats items.length item env' → ∀ b, e.Holds call env' b →
      Steady call env items.length gs item b) : KeptInTurn call env (fs ++ (gs ++ es)) items kept :=
  h.change fs gs fun _ _ hpassed hnext => hnext.expand fun item hitem env' henv' b hb =>
    (hsteady item (hpassed.sublist.subset hitem) env'
      (henv'.mono hpassed.sublist.length_le) b hb).anti hpassed.sublist.length_le

theorem KeptInTurn.insert (fs : List Expr) (h : KeptInTurn call env (fs ++ es) items kept)
    (htrue : ∀ env', e.Holds call env' true) : KeptInTurn call env (fs ++ e :: es) items kept := by
  obtain ⟨passed, hpassed, hkept⟩ := (keptInTurn_append fs).mp h
  refine (keptInTurn_append fs).mpr
    ⟨passed, hpassed, (keptInTurn_cons e es).mpr ⟨passed, ?_, hkept⟩⟩
  exact keptInTurn_single.mpr
    ((Sifted.of_true passed).imp_places fun _ _ _ _ _ b hb => hb ▸ htrue _)

theorem KeptInTurn.eq_nil (fs : List Expr) (h : KeptInTurn call env (fs ++ e :: es) items kept)
    (hfalse : ∀ env' b, e.Holds call env' b → b = false) : kept = [] := by
  obtain ⟨passed, -, hkept⟩ := (keptInTurn_append fs).mp h
  obtain ⟨next, hnext, hlast⟩ := (keptInTurn_cons e es).mp hkept
  obtain rfl : next = [] := (hnext.sifted fun _ _ env' _ b hb => hfalse env' b hb).eq_nil_of_false
  exact List.sublist_nil.mp hlast.sublist

theorem Expr.holds_of_isBool {x : Bool} (he : e.isBool x = true) : e.Holds call env b ↔ b = x := by
  unfold isBool at he
  split at he
  · next c hform =>
    obtain rfl := beq_iff_eq.mp he
    exact (delivers_literal hform).holds_boolean
  · cases he

end

/-! ### The list while it is built -/

/-- What is known of the predicates in a list: none is positional unless the list says so, and they
are formed of what is written. -/
structure PredicateList.Proper (Γ : List Variable) (L : Knowledge) (Written : Expr → Prop)
    (list : PredicateList) : Prop where
  steady : list.positional = false → ∀ e ∈ list.kept, e.isPositional = false
  formed : ∀ e ∈ list.kept, e.form.Formed Written
  annotated : AnnotatedAll Γ L list.kept

section

variable {Γ : List Variable} {K L : Knowledge} {Written : Expr → Prop} {list list' : PredicateList}

theorem PredicateList.Proper.add (hlist : list.Proper Γ L Written) (he : e.Annotated Γ L)
    (hformed : e.form.Formed Written) (h : (list.add e).Gives list') :
    list'.Proper Γ L Written := by
  obtain ⟨hpositional, hcases⟩ := PredicateList.add_cases h
  have hsteady (h : list'.positional = false) : list.positional = false ∧
      e.isPositional = false := by
    rwa [hpositional, Bool.or_eq_false_iff] at h
  obtain ⟨hkept, -⟩ | hkept := hcases
  · exact ⟨hkept ▸ fun h => hlist.steady (hsteady h).1, hkept ▸ hlist.formed,
      hkept ▸ hlist.annotated⟩
  · refine ⟨fun h => ?_, ?_, PredicateList.add_annotated h hlist.annotated he⟩
    · rw [hkept]
      exact List.forall_mem_append.mpr
        ⟨hlist.steady (hsteady h).1, List.forall_mem_singleton.mpr (hsteady h).2⟩
    · rw [hkept]
      exact List.forall_mem_append.mpr ⟨hlist.formed, List.forall_mem_singleton.mpr hformed⟩

variable (hc : call.IgnoresFocus) (hplace : call.IgnoresPlace) (hcall : call.Sound)
    (henv : env.Fits Γ K)
  (hitems : ∀ item ∈ items, L.Holds env.forest item ∧ item.Good)

include hc hplace hcall henv hitems

theorem PredicateList.add_keeps (hparts : ∀ e, Written e → ∀ part ∈ e.form.parts, Written part)
    (htwins : TwinsAlike Written) (hlist : list.Proper Γ L Written)
    (hformed : e.form.Formed Written) (h : (list.add e).Gives list')
    (hkept : KeptInTurn call env (list.kept ++ e :: es) items kept) :
    KeptInTurn call env (list'.kept ++ es) items kept := by
  obtain ⟨hpositional, ⟨hsame, htrue | ⟨hnot, f, hf, htwin⟩⟩ | hadded⟩ := PredicateList.add_cases h
  · rw [hsame]
    exact hkept.spread list.kept [] fun item _ env' _ b hb => (Expr.holds_of_isBool htrue).mp hb
  · rw [hsame]
    rw [hpositional, Bool.or_eq_false_iff] at hnot
    have hforms : f.form.gist = e.form.gist := by
      refine (hlist.formed f hf).gist_eq hparts htwins hformed ?_
      cases f
      cases e
      exact htwin
    have sound (item : Item) (hitem : item ∈ items) :
        SoundOn call env list.kept item := fun d hd _ _ =>
      (annotatedAll_iff.mp hlist.annotated d hd).soundAt hcall (henv.focusOn (hitems item hitem))
    refine hkept.change list.kept [] fun passed next hpassed hnext =>
      hnext.expand fun item hitem env' henv' b hb => ?_
    have htwin := hpassed.holds hc hf (hlist.steady hnot.1 f hf) sound item hitem env' henv'
    exact hb.unique (htwin.of_gist_eq hplace hforms)
  · rw [hadded]
    simpa using hkept

end

/-! ### Operands -/

section

variable {scope : Scope} {depth : Nat} {K L : Knowledge} {Written : Expr → Prop}
    {l : Option Location} {operands : List Expr}
  {list : PredicateList} {result : PredicateList × Expr}
  (hparts : ∀ e, Written e → ∀ part ∈ e.form.parts, Written part)
  (hfree : ∀ e, Written e → e.filterFree = true)
  (hmoved : ∀ e l, Written e → Written (e.at? l))

include hparts hfree hmoved

theorem splitOperands_proper : {operands : List Expr} → {list : PredicateList} →
    {result : PredicateList × Expr} →
    (splitOperands (optimizerWithin depth) scope l list operands).Gives result →
    list.Proper scope.visible L Written →
    (∀ e ∈ operands, Written e) → AnnotatedAll scope.visible L operands →
    result.1.Proper scope.visible L Written ∧ result.2.form.Formed Written
  | [], list, result, h, hlist, _, _ => by
    obtain rfl := Logged.gives_pure.mp h
    exact ⟨hlist, Form.formed_ofBool⟩
  | [e], list, result, h, hlist, hwritten, _ => by
    simp only [splitOperands, Logged.gives_bind, Logged.gives_pure] at h
    obtain ⟨e', he', rfl⟩ := h
    exact ⟨hlist, operandPredicate_formed (optimizerWithin_keepsForm hparts hfree hmoved depth) he'
      (hwritten e List.mem_cons_self)⟩
  | e :: e₂ :: es, list, result, h, hlist, hwritten, hann => by
    rw [AnnotatedAll] at hann
    simp only [splitOperands, Logged.gives_bind] at h
    obtain ⟨e', he', list', hlist', h⟩ := h
    have hformed := operandPredicate_formed (optimizerWithin_keepsForm hparts hfree hmoved depth)
      he' (hwritten e List.mem_cons_self)
    have hannotated := operandPredicate_annotated (optimizerWithin_sound depth) he' hann.1
    exact splitOperands_proper h (hlist.add hannotated hformed hlist')
      (fun e he => hwritten e (List.mem_cons_of_mem _ he)) hann.2

theorem canonicalPredicate_proper
    (h : (canonicalPredicate (optimizerWithin depth) scope list e).Gives result)
    (hlist : list.Proper scope.visible L Written) (hformed : e.form.Formed Written)
    (hann : e.Annotated scope.visible L) :
    result.1.Proper scope.visible L Written ∧ result.2.form.Formed Written := by
  obtain ⟨operands, hsplit, h⟩ | ⟨e', he', rfl⟩ := canonicalPredicate_cases h
  · have hwritten : ∀ d ∈ operands, Written d := fun d hd =>
      hformed.part hparts d ((splittable?_cases hsplit).1 ▸ hd)
    exact splitOperands_proper hparts hfree hmoved h hlist hwritten
      (splittable?_annotated hsplit hann)
  · refine ⟨hlist, ?_⟩
    obtain rfl | ⟨x, -, rfl⟩ | ⟨b, -, -, rfl⟩ := constantPredicate_cases he'
    · exact hformed
    · exact Form.formed_ofPositionTest
    · exact Form.formed_ofBool

omit hparts hfree hmoved in
theorem resolveSingleton_formed {host : Host} (h : e.form.Formed Written) :
    (resolveSingleton host e).form.Formed Written := by
  obtain hsame | ⟨w, -, -, hsame⟩ := resolveSingleton_cases host e <;> rw [hsame]
  · exact h
  · exact Form.formed_ofBool

variable (hc : call.IgnoresFocus) (hplace : call.IgnoresPlace) (hcall : call.Sound)
    (henv : env.Fits scope.visible K)
  (hitems : ∀ item ∈ items, L.Holds env.forest item ∧ item.Good)

omit hparts hmoved in
include hplace hcall henv in
theorem operandPredicate_supplants {most : Nat} (he : e.Annotated scope.visible L)
    (hwritten : Written e) (h : (operandPredicate (optimizerWithin depth) scope l e).Gives e') :
    Supplants call env most (fun item => L.Holds env.forest item ∧ item.Good)
      (Expr.call .boolean [e]) e' := by
  intro item hitem env' henv' b hb
  have henv'' := henv'.fits henv hitem
  exact operandPredicate_holds hplace hcall henv'' (optimizerWithin_sound depth)
    (optimizerWithin_keepsTruth hcall hplace henv'' depth)
    he (hfree e hwritten) h (Expr.holds_boolean.mp hb)

include hc hplace hcall henv hitems

/-- The operands of a conjunction keep as predicates of their own what their truths keep. -/
theorem splitOperands_keeps (htwins : TwinsAlike Written) :
    {operands : List Expr} → {list : PredicateList} →
    {result : PredicateList × Expr} →
    (splitOperands (optimizerWithin depth) scope l list operands).Gives result →
    list.Proper scope.visible L Written → (∀ e ∈ operands, Written e) →
    AnnotatedAll scope.visible L operands →
    KeptInTurn call env
      (list.kept ++ ((operands.map fun e => Expr.call .boolean [e]) ++ es)) items kept →
    KeptInTurn call env (result.1.kept ++ result.2 :: es) items kept
  | [], list, result, h, _, _, _, hkept => by
    obtain rfl := Logged.gives_pure.mp h
    exact hkept.insert list.kept fun _ => Expr.holds_ofBool.mpr rfl
  | [e], list, result, h, _, hwritten, hann, hkept => by
    simp only [splitOperands, Logged.gives_bind, Logged.gives_pure] at h
    obtain ⟨e', he', rfl⟩ := h
    rw [AnnotatedAll] at hann
    exact hkept.replace list.kept hitems
      (operandPredicate_supplants hfree hplace hcall henv hann.1
        (hwritten e List.mem_cons_self) he')
  | e :: e₂ :: rest, list, result, h, hlist, hwritten, hann, hkept => by
    rw [AnnotatedAll] at hann
    simp only [splitOperands, Logged.gives_bind] at h
    obtain ⟨e', he', list', hlist', h⟩ := h
    have he := hwritten e List.mem_cons_self
    have hformed := operandPredicate_formed
      (optimizerWithin_keepsForm hparts hfree hmoved depth) he' he
    have hkept' := hkept.replace list.kept hitems
      (operandPredicate_supplants hfree hplace hcall henv hann.1 he he')
    have hadded := PredicateList.add_keeps hc hplace hcall henv hitems hparts htwins hlist
      hformed hlist' hkept'
    exact splitOperands_keeps htwins h
      (hlist.add
      (operandPredicate_annotated (optimizerWithin_sound depth) he' hann.1) hformed hlist')
      (fun e he => hwritten e (List.mem_cons_of_mem _ he)) hann.2 hadded

end

/-! ### The whole list -/

/-- What predicates keep in turn, which is nothing where one of them never holds and there is no
list. -/
def KeptIfAny (call : Caller) (env : Env) (items kept : List Item) : Option (List Expr) → Prop
  | none => kept = []
  | some es => KeptInTurn call env es items kept

section

variable {most : Nat} {P : Item → Prop}

theorem constantPredicate_supplants (hmost : most ≤ memoryLimit)
    (h : constantPredicate e = .ok e') : Supplants call env most P e e' := by
  intro item _ env' henv' b hb
  obtain rfl | ⟨x, hx, rfl⟩ | ⟨b', hnumber, hconstant, rfl⟩ := constantPredicate_cases h
  · exact hb
  · exact Expr.holds_ofPositionTest.mpr (hb.of_number hx henv'.one_le (henv'.le.trans hmost))
  · exact Expr.holds_ofBool.mpr (hb.of_constant hnumber hconstant)

/-- Of at most one item only the first position has to be looked at. -/
theorem resolveSingleton_supplants {host : Host} (hmost : host.isSingleton = true → most ≤ 1) :
    Supplants call env most P e (resolveSingleton host e) := by
  intro item _ env' henv' b hb
  obtain hsame | ⟨w, hw, hsingleton, hsame⟩ := resolveSingleton_cases host e <;> rw [hsame]
  · exact hb
  · have hfirst : env'.focus.position = 1 :=
      le_antisymm (henv'.le.trans (hmost hsingleton)) henv'.one_le
    rw [Expr.holds_ofBool, ← hfirst]
    exact (Expr.holds_window hw).mp hb

variable {scope : Scope} {depth : Nat} {K L : Knowledge} {Written : Expr → Prop} {host : Host}
  (hc : call.IgnoresFocus) (hplace : call.IgnoresPlace) (hcall : call.Sound)
  (henv : env.Fits scope.visible K)
  (hitems : ∀ item ∈ items, L.Holds env.forest item ∧ item.Good)
  (hlength : items.length ≤ memoryLimit)
  (hparts : ∀ e, Written e → ∀ part ∈ e.form.parts, Written part)
  (hfree : ∀ e, Written e → e.filterFree = true)
  (hmoved : ∀ e l, Written e → Written (e.at? l)) (htwins : TwinsAlike Written)

include hc hplace hcall henv hitems hlength hparts hfree hmoved htwins

theorem canonicalPredicate_keeps {list : PredicateList} {result : PredicateList × Expr}
    (h : (canonicalPredicate (optimizerWithin depth) scope list e).Gives result)
    (hlist : list.Proper scope.visible L Written) (hformed : e.form.Formed Written)
    (hann : e.Annotated scope.visible L)
    (hkept : KeptInTurn call env (list.kept ++ e :: es) items kept) :
    KeptInTurn call env (result.1.kept ++ result.2 :: es) items kept := by
  obtain ⟨operands, hsplit, h⟩ | ⟨e', he', rfl⟩ := canonicalPredicate_cases h
  · obtain ⟨hform, hposition⟩ := splittable?_cases hsplit
    have hwritten : ∀ d ∈ operands, Written d := fun d hd => hformed.part hparts d (hform ▸ hd)
    refine splitOperands_keeps hparts hfree hmoved hc hplace hcall henv hitems htwins
      h hlist hwritten
      (splittable?_annotated hsplit hann)
      (hkept.spread list.kept _ fun item _ env' henv' b hb => ?_)
    exact steady_of_conjunction hc henv' hform hposition hb
  · exact hkept.replace list.kept hitems (constantPredicate_supplants hlength he')

/-- The canonical list keeps what the predicates keep. -/
theorem canonicalList_keeps (hsingleton : host.isSingleton = true → items.length ≤ 1) :
    {es : List Expr} → {list : PredicateList} →
    {result : Option (List Expr)} →
    (canonicalList (optimizerWithin depth) scope host list es).Gives result →
    list.Proper scope.visible L Written → (∀ e ∈ es, e.form.Formed Written) →
    AnnotatedAll scope.visible L es →
    KeptInTurn call env (list.kept ++ es) items kept → KeptIfAny call env items kept result
  | [], list, result, h, _, _, _, hkept => by
    obtain rfl := Logged.gives_pure.mp h
    simpa [KeptIfAny] using hkept
  | e :: es, list, result, h, hlist, hformed, hann, hkept => by
    rw [AnnotatedAll] at hann
    simp only [canonicalList, Logged.gives_ite, Logged.gives_bind, gives_remark,
      Logged.gives_pure] at h
    obtain ⟨e₁, h₁, ⟨list₂, e₂⟩, h₂, h⟩ := h
    have hformed₁ :=
      (optimizerWithin_keepsForm hparts hfree hmoved depth (hformed e List.mem_cons_self) h₁).1
    have hann₁ := (optimizerWithin_sound depth).simplify hann.1 h₁
    obtain ⟨hlist₂, hformed₂⟩ :=
      canonicalPredicate_proper hparts hfree hmoved h₂ hlist hformed₁ hann₁
    have hann₂ :=
      (canonicalPredicate_annotated (optimizerWithin_sound depth) h₂ hlist.annotated hann₁).2
    have hkept₁ : KeptInTurn call env (list.kept ++ e₁ :: es) items kept :=
      hkept.replace list.kept hitems fun item hitem env' henv' b hb =>
        optimizerWithin_holds hplace hcall (henv'.fits henv hitem)
        hparts hfree depth hann.1 (hformed e List.mem_cons_self) h₁ hb
    have hkept₂ : KeptInTurn call env (list₂.kept ++ e₂ :: es) items kept :=
      canonicalPredicate_keeps hc hplace hcall henv hitems hlength hparts hfree hmoved htwins h₂
        hlist hformed₁ hann₁ hkept₁
    have hkept₃ : KeptInTurn call env (list₂.kept ++ resolveSingleton host e₂ :: es) items kept :=
      hkept₂.replace list₂.kept hitems (resolveSingleton_supplants hsingleton)
    obtain ⟨hfalse, -, -, rfl⟩ | ⟨-, list₃, h₃, h⟩ := h
    · exact hkept₃.eq_nil list₂.kept fun _ _ => (Expr.holds_of_isBool hfalse).mp
    · have hlist₃ := hlist₂.add (resolveSingleton_annotated hann₂)
        (resolveSingleton_formed hformed₂) h₃
      exact canonicalList_keeps hsingleton h hlist₃
        (fun e he => hformed e (List.mem_cons_of_mem _ he)) hann.2
        (PredicateList.add_keeps hc hplace hcall henv hitems hparts htwins hlist₂
          (resolveSingleton_formed hformed₂) h₃ hkept₃)

end

end TreeQuery
