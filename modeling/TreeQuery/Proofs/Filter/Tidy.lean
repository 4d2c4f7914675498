import TreeQuery.Proofs.Compile.Tidy
import TreeQuery.Proofs.Filter.Hosts
/-!
# Predicates as compilation leaves them

The static types of tidy expressions that are the same tell the same number of items, so evaluation
sees no difference between them, save for three things that their forms do not tell (`LeftAlike`):
constants may be equal and not identical, as 0.0 and -0.0 are, the function that is called may be
known by its focus alone, and so may be whether a predicate is a number. Up to these, predicates are
regular as compilation leaves them (`Host.regular_of_tidy`).
-/

namespace TreeQuery

/-! ### Expressions by their parts -/

section

variable {P : Expr → Prop}

mutual

theorem Expr.induct_parts (h : ∀ e : Expr, (∀ part ∈ e.form.parts, P part) → P e) : (e : Expr) → P e
  | ⟨form, _, _⟩ => h _ (Form.all_parts h form)

theorem Form.all_parts (h : ∀ e : Expr, (∀ part ∈ e.form.parts, P part) → P e) :
    (form : Form) → ∀ part ∈ form.parts, P part
  | .literal _ | .function _ | .contextItem | .position _ | .reference _ | .failure _ => fun _ hp =>
    absurd hp List.not_mem_nil
  | .conjunction es | .disjunction es | .call _ es | .step _ _ es | .relativePath es | .map es =>
    all_of_parts h es
  | .comparison _ _ a b | .containsText a b =>
    List.forall_mem_cons.mpr ⟨Expr.induct_parts h a,
      List.forall_mem_singleton.mpr (Expr.induct_parts h b)⟩
  | .path e es | .filter e es | .apply e es =>
    List.forall_mem_cons.mpr ⟨Expr.induct_parts h e, all_of_parts h es⟩
  | .conditional a b c => List.forall_mem_cons.mpr ⟨Expr.induct_parts h a,
      List.forall_mem_cons.mpr
        ⟨Expr.induct_parts h b, List.forall_mem_singleton.mpr (Expr.induct_parts h c)⟩⟩
  | .check e _ _ => List.forall_mem_singleton.mpr (Expr.induct_parts h e)

theorem all_of_parts (h : ∀ e : Expr, (∀ part ∈ e.form.parts, P part) → P e) :
    (es : List Expr) → ∀ e ∈ es, P e
  | [] => fun _ he => absurd he List.not_mem_nil
  | e :: es => List.forall_mem_cons.mpr ⟨Expr.induct_parts h e, all_of_parts h es⟩

end

end

theorem Form.sameExprs_parts {form form' : Form} (h : form.same form' = true) :
    sameExprs form.parts form'.parts = true := by
  unfold Form.same at h
  split at h
  all_goals simp_all [Form.parts, sameExprs]

theorem Expr.Tidy.part {e : Expr} (h : e.Tidy) : ∀ part ∈ e.form.parts, part.Tidy := by
  obtain ⟨form, τ, l⟩ := e
  have hform : form.Satisfies .tidy () := h.2
  refine allSatisfy_iff.mp ?_
  cases form <;> simp_all [Form.parts, Form.Satisfies, AllSatisfy]

/-! ### Numbers of items -/

def StaticType.count (t : StaticType) : Occurrence × Option Nat := (t.occurrence, t.size)

/-- Whether evaluation sees no difference between expressions, and their static types tell the same
number of items. -/
structure Expr.Alike (e e' : Expr) : Prop where
  form : e.form.gist = e'.form.gist
  count : e.type.count = e'.type.count

section

variable {es fs : List Expr} {e f : Expr}

theorem Expr.Alike.occurrence (h : e.Alike f) : e.type.occurrence = f.type.occurrence :=
  congrArg Prod.fst h.count

theorem Expr.Alike.size (h : e.Alike f) : e.type.size = f.type.size := congrArg Prod.snd h.count

theorem Expr.Alike.gist (h : e.Alike f) : e.gist .amount = f.gist .amount := by
  obtain ⟨form, τ, l⟩ := e
  obtain ⟨form', τ', l'⟩ := f
  have hform : form.gist = form'.gist := h.form
  have hoccurrence : τ.occurrence = τ'.occurrence := h.occurrence
  rw [Expr.gist, Expr.gist, StaticType.gist, StaticType.gist, StaticType.atMostOne,
    StaticType.atMostOne, hform, hoccurrence]

theorem Expr.Alike.gist_nothing (h : e.Alike f) : e.gist .nothing = f.gist .nothing := by
  obtain ⟨form, τ, l⟩ := e
  obtain ⟨form', τ', l'⟩ := f
  simp only [Expr.gist, StaticType.gist, h.form]

theorem gistAll_amount_of_alike (h : List.Forall₂ Expr.Alike es fs) :
    gistAll .amount es = gistAll .amount fs := by
  induction h with
  | nil => rfl
  | cons h _ ih => rw [gistAll, gistAll, h.gist, ih]

theorem gistAll_nothing_of_alike (h : List.Forall₂ Expr.Alike es fs) :
    gistAll .nothing es = gistAll .nothing fs :=
  gistAll_nothing_eq (gistAll_amount_of_alike h)

theorem gistAll_number_of_alike (h : List.Forall₂ Expr.Alike es fs)
    (hnumber : es.map (·.type.mayBeNumber) = fs.map (·.type.mayBeNumber)) :
    gistAll .number es = gistAll .number fs := by
  induction h with
  | nil => rfl
  | @cons e f es fs h _ ih =>
    simp only [List.map_cons, List.cons.injEq] at hnumber
    obtain ⟨form, τ, l⟩ := e
    obtain ⟨form', τ', l'⟩ := f
    have hform : form.gist = form'.gist := h.form
    have hhere : τ.mayBeNumber = τ'.mayBeNumber := hnumber.1
    rw [gistAll, gistAll, ih hnumber.2]
    simp only [Expr.gist, StaticType.gist, hform, hhere]

theorem StaticType.count_make {i j : ItemType} {o : Occurrence} {n : Option Nat} :
    (make i o n).count = (make j o n).count := by
  cases n <;> rfl

theorem StaticType.count_union {a b c d : StaticType} (hleft : a.count = c.count)
    (hright : b.count = d.count) : (a.union b).count = (c.union d).count := by
  obtain ⟨hleft, hleftSize⟩ : a.occurrence = c.occurrence ∧ a.size = c.size := Prod.mk.inj hleft
  obtain ⟨hright, hrightSize⟩ : b.occurrence = d.occurrence ∧ b.size = d.size := Prod.mk.inj hright
  rw [union, union, hleft, hright, hleftSize, hrightSize]
  exact count_make

theorem chainOccurrence_of_alike (h : List.Forall₂ Expr.Alike es fs) (o : Occurrence) :
    chainOccurrence o es = chainOccurrence o fs := by
  induction h generalizing o with
  | nil => rfl
  | cons h _ ih =>
    simp only [chainOccurrence, List.foldl_cons, h.occurrence]
    exact ih _

theorem productSize_of_alike (h : List.Forall₂ Expr.Alike es fs) :
    productSize es = productSize fs := by
  unfold productSize
  generalize some 1 = size
  induction h generalizing size with
  | nil => rfl
  | cons h _ ih =>
    simp only [List.foldl_cons, h.size]
    exact ih _

theorem filteredType_count {s t : StaticType} (hcount : s.count = t.count)
    (h : sameExprs es fs = true) :
    ((filteredType s es).getD .empty).count = ((filteredType t fs).getD .empty).count := by
  obtain ⟨hoccurrence, hsize⟩ : s.occurrence = t.occurrence ∧ s.size = t.size := Prod.mk.inj hcount
  obtain ⟨hlimits, hexact⟩ := limits_eq_of_same h
  simp only [filteredType, hoccurrence, hsize, hlimits, hexact]
  split
  · rfl
  · exact StaticType.count_make

end

/-! ### Expressions that are the same -/

def Form.predicates : Form → List Expr
  | .step _ _ es | .filter _ es => es
  | _ => []

def Form.IsValue : Form → Prop
  | .literal _ | .function _ | .failure _ => True
  | _ => False

theorem Form.isValue_of_same {form form' : Form} (h : form.same form' = true) (h' : form'.IsValue) :
    form.IsValue := by
  cases form' <;> first | exact absurd h' not_false | (cases form <;> simp_all [Form.same, IsValue])

/-- What the forms of expressions that are the same do not tell. -/
structure LeftAlike (Written : Expr → Prop) : Prop where
  /-- Values that are the same are equal. -/
  value : ∀ e e', Written e → Written e' → e.same e' = true → e.form.IsValue →
    e.at? none = e'.at? none
  /-- Calls of function items give as many items. -/
  apply : ∀ e e', Written e → Written e' → e.same e' = true → ∀ f args, e.form = .apply f args →
    e.type.count = e'.type.count
  /-- The same predicates may be numbers. -/
  number : ∀ e e', Written e → Written e' → e.same e' = true →
    e.form.predicates.map (·.type.mayBeNumber) = e'.form.predicates.map (·.type.mayBeNumber)

theorem forall₂_of_same {P Q : Expr → Prop}
    (halike : ∀ e f, P e → Q f → e.same f = true → e.Alike f) :
    {es fs : List Expr} → (∀ e ∈ es, P e) → (∀ f ∈ fs, Q f) → sameExprs es fs = true →
    List.Forall₂ Expr.Alike es fs
  | [], [], _, _, _ => .nil
  | [], _ :: _, _, _, h => by simp [sameExprs] at h
  | _ :: _, [], _, _, h => by simp [sameExprs] at h
  | e :: es, f :: fs, hes, hfs, h => by
    rw [sameExprs, Bool.and_eq_true] at h
    rw [List.forall_mem_cons] at hes hfs
    exact .cons (halike e f hes.1 hfs.1 h.1) (forall₂_of_same halike hes.2 hfs.2 h.2)

section

variable {form form' : Form} (hsame : form.same form' = true)
    (hparts : List.Forall₂ Expr.Alike form.parts form'.parts)

include hsame hparts

theorem Form.gist_eq_of_same (hvalue : form.IsValue → form = form')
    (hnumber : form.predicates.map (·.type.mayBeNumber) = form'.predicates.map
      (·.type.mayBeNumber)) : form.gist = form'.gist := by
  have hamount := gistAll_amount_of_alike hparts
  have hnothing := gistAll_nothing_of_alike hparts
  cases form <;> cases form' <;> simp only [Form.same, Bool.false_eq_true] at hsame
  case literal.literal | function.function | failure.failure => rw [hvalue trivial]
  case step.step =>
    have hnumbers := gistAll_number_of_alike hparts hnumber
    simp_all [Form.gist, Form.parts]
  case filter.filter =>
    obtain ⟨hroot, hlist⟩ := List.forall₂_cons.mp hparts
    have hnumbers := gistAll_number_of_alike hlist hnumber
    simp_all [Form.gist, hroot.gist_nothing]
  all_goals simp_all [Form.parts, Form.gist, gistAll]

/-- The same number of items comes of forms that are the same, by the static types that the rules
compute. -/
theorem Form.count_computedType_of_same (happly : ∀ f args, form ≠ .apply f args) :
    form.computedType.count = form'.computedType.count := by
  cases form <;> cases form' <;> simp only [Form.same, Bool.false_eq_true] at hsame
  case literal.literal => exact congrArg StaticType.count (literalType_eq_of_same hsame).1
  case reference.reference => exact eq_of_beq hsame ▸ rfl
  case comparison.comparison =>
    obtain ⟨hleft, hright⟩ := List.forall₂_cons.mp hparts
    obtain ⟨hright, -⟩ := List.forall₂_cons.mp hright
    simp only [Bool.and_eq_true, beq_iff_eq] at hsame
    obtain ⟨⟨⟨rfl, rfl⟩, -⟩, -⟩ := hsame
    simp only [computedType, comparisonType, hleft.occurrence, hright.occurrence]
  case call.call f args g args' =>
    rw [Bool.and_eq_true, beq_iff_eq] at hsame
    obtain ⟨rfl, -⟩ := hsame
    obtain _ | ⟨hfirst, -⟩ : List.Forall₂ Expr.Alike args args' := hparts
    · rfl
    · cases f with
      | trace => exact hfirst.count
      | _ => rfl
  case step.step =>
    simp only [Bool.and_eq_true, beq_iff_eq] at hsame
    obtain ⟨⟨rfl, rfl⟩, hsame⟩ := hsame
    exact filteredType_count rfl hsame
  case path.path =>
    obtain ⟨hroot, hsteps⟩ := List.forall₂_cons.mp hparts
    simp only [computedType, hroot.occurrence, chainOccurrence_of_alike hsteps]
    rfl
  case relativePath.relativePath steps steps' =>
    have hsteps : List.Forall₂ Expr.Alike steps steps' := hparts
    simp only [computedType, chainOccurrence_of_alike hsteps]
    rfl
  case map.map operands operands' =>
    have hoperands : List.Forall₂ Expr.Alike operands operands' := hparts
    simp only [computedType, chainOccurrence_of_alike hoperands, productSize_of_alike hoperands]
    exact StaticType.count_make
  case filter.filter =>
    obtain ⟨hroot, -⟩ := List.forall₂_cons.mp hparts
    exact filteredType_count hroot.count (Bool.and_eq_true_iff.mp hsame).2
  case conditional.conditional =>
    obtain ⟨-, hbranches⟩ := List.forall₂_cons.mp hparts
    obtain ⟨hyes, hbranches⟩ := List.forall₂_cons.mp hbranches
    exact StaticType.count_union hyes.count (List.forall₂_cons.mp hbranches).1.count
  case check.check =>
    obtain ⟨hoperand, -⟩ := List.forall₂_cons.mp hparts
    simp only [Bool.and_eq_true, beq_iff_eq] at hsame
    obtain ⟨⟨-, rfl⟩, -⟩ := hsame
    simp only [computedType, runtimeCheck, hoperand.occurrence, hoperand.size]
    exact StaticType.count_make
  case apply.apply => exact absurd rfl (happly _ _)
  all_goals rfl

end

theorem Expr.Tidy.count {e : Expr} (h : e.Tidy) (hvalue : ¬e.form.IsValue) :
    e.type.count = e.form.computedType.count := by
  obtain ⟨form, τ, l⟩ := e
  obtain ⟨hnode, -⟩ := h
  cases form with
  | contextItem =>
    obtain ⟨t, rfl⟩ := hnode
    rfl
  | failure e => exact absurd trivial hvalue
  | path root steps => exact congrArg StaticType.count hnode.2.2
  | relativePath steps => exact congrArg StaticType.count hnode.2.2
  | _ => exact congrArg StaticType.count hnode

section

variable {Written : Expr → Prop} (hparts : ∀ e, Written e → ∀ part ∈ e.form.parts, Written part)
  (htidy : ∀ e, Written e → e.Tidy) (hleft : LeftAlike Written)

include hparts htidy hleft

/-- Tidy expressions that are the same are alike, save for what their forms do not tell. -/
theorem Expr.alike_of_same (e : Expr) :
    ∀ e', Written e → Written e' → e.same e' = true → e.Alike e' := by
  induction e using Expr.induct_parts with
  | h e ih =>
    intro e' he he' hsame
    have hvalue := hleft.value e e' he he' hsame
    have happly := hleft.apply e e' he he' hsame
    have hnumber := hleft.number e e' he he' hsame
    have hparts :=
      forall₂_of_same (fun d d' hd hd' => ih d hd d' (hparts e he d hd) (hparts e' he' d' hd'))
      (fun _ => id) (fun _ => id)
    have htype := (htidy e he).count
    have htype' := (htidy e' he').count
    obtain ⟨form, τ, l⟩ := e
    obtain ⟨form', τ', l'⟩ := e'
    rw [Expr.same] at hsame
    have halike : List.Forall₂ Expr.Alike form.parts form'.parts :=
      hparts (Form.sameExprs_parts hsame)
    by_cases hplain : form.IsValue
    · obtain ⟨rfl, rfl⟩ : form = form' ∧ τ = τ' := by simpa [Expr.at?] using hvalue hplain
      exact ⟨rfl, rfl⟩
    refine ⟨Form.gist_eq_of_same hsame halike (fun h => absurd h hplain) hnumber, ?_⟩
    by_cases hcall : ∃ f args, form = .apply f args
    · obtain ⟨f, args, hcall⟩ := hcall
      exact happly f args hcall
    · have hplain' : ¬form'.IsValue := fun h => hplain (Form.isValue_of_same hsame h)
      exact (htype hplain).trans
        ((Form.count_computedType_of_same hsame halike fun f args h => hcall ⟨f, args, h⟩).trans
        (htype' hplain').symm)

end

/-! ### Regular predicates -/

def Host.roots : Host → List Expr
  | .root e => [e]
  | .step .. => []

section

variable {host : Host} {es : List Expr}
  (hunequal : ∀ e ∈ es, ∀ style left right, e.form = .comparison style .ne left right →
    recognizePosition .ne left right = none)
  (hinlined : ∀ root v, host = .root root → root.form ≠ .literal [v])
  (hleft : LeftAlike (WrittenIn (host.roots ++ es)))

include hunequal hinlined hleft

theorem Host.regular_of_tidy (hhost : AllSatisfy .tidy () host.roots)
    (hes : AllSatisfy .tidy () es) : host.Regular es := by
  have hall : ∀ e ∈ host.roots ++ es, e.Tidy :=
    allSatisfy_iff.mp (allSatisfy_append.mpr ⟨hhost, hes⟩)
  have htidy (e : Expr) (he : WrittenIn (host.roots ++ es) e) : e.Tidy :=
    he.hereditary hall fun _ h => h.part
  have hwritten (e : Expr) (he : WrittenIn es e) : WrittenIn (host.roots ++ es) e := by
    obtain ⟨d, hd, hcontains⟩ := he
    exact ⟨d, List.mem_append_right _ hd, hcontains⟩
  have hmember (e : Expr) (he : host = .root e ∨ WrittenIn es e) :
      WrittenIn (host.roots ++ es) e := by
    obtain rfl | he := he
    · exact .of_mem List.mem_cons_self
    · exact hwritten e he
  refine ⟨hunequal, hinlined, fun e e' he he' hsame => ?_, fun e he first steps hform hitem => ?_,
    fun e he first steps hform => ?_⟩
  · exact (Expr.alike_of_same (fun _ he _ => he.part) htidy hleft e e' (hmember e he)
      (hmember e' he') hsame).gist
  · obtain ⟨form, τ, l⟩ := first
    have hfirst : Expr.Tidy ⟨form, τ, l⟩ :=
      (htidy e (hwritten e he)).part _ (by rw [hform]; exact List.mem_cons_self)
    cases form <;> simp only [Expr.isContextItem, Bool.false_eq_true] at hitem
    obtain ⟨t, rfl⟩ := hfirst.1
    rfl
  · have hpath := htidy e (hwritten e he)
    obtain ⟨form, τ, l⟩ := e
    obtain rfl : form = .path first steps := hform
    exact hpath.1.2.1

/-- Predicates are regular as compilation leaves them and their root, up to the rules that do not
keep what predicates keep and what the forms of the same expressions do not tell. -/
theorem Host.regular_of_compiled {d : Nat} {scope : Scope} (hoptimize : scope.optimize = true)
    {roots source : List Expr} {t : Option ItemType} (hroots : AllSatisfy .tidySource () roots)
    (hsource : AllSatisfy .tidySource () source)
    (hcompiled : (compileAll (optimizerWithin d) scope roots).Gives host.roots)
    (hpredicates : (compilePredicates (optimizerWithin d) (scope.withFocus t) source).Gives es) :
    host.Regular es := by
  have hfocused : (scope.withFocus t).optimize = true := hoptimize
  exact Host.regular_of_tidy hunequal hinlined hleft (compileAll_tidy hoptimize hroots hcompiled)
    (compilePredicates_tidy hfocused hsource hpredicates)

end

end TreeQuery
