import Mathlib.Logic.Relation
import TreeQuery.Proofs.Compile.Effects
import TreeQuery.Proofs.Eval.Gist
import TreeQuery.Proofs.Rewriting.Truth
/-!
# Predicates that are the same

Sameness takes no notice of static types, evaluation does: it asks a path's root whether it can be
several items. So a predicate may stand for another that is the same only if their static types
answer alike, all the way down (`Expr.gist`). The rules for predicates put new nodes on top of what
is written in the predicates (`Form.Formed`); so they are the same to evaluation if what is written
is (`Form.Formed.gist_eq`).
-/

namespace TreeQuery

/-! ### What is written in an expression -/

/-- Whether an expression is another one or a part of it, however deep, the bodies of function items
apart. -/
def Expr.Contains : Expr → Expr → Prop := Relation.ReflTransGen fun e part => part ∈ e.form.parts

def WrittenIn (es : List Expr) (e : Expr) : Prop := ∃ d ∈ es, d.Contains e

/-- Forms that the rules for predicates put on top of others. -/
def Form.isLaid : Form → Bool
  | .literal [] | .literal [.boolean _] | .contextItem | .position _ | .call .. | .map
      _ | .relativePath _ => true
  | _ => false

/-- Whether a form is one of those that are written, or is laid on top of these. -/
def Form.Formed (Written : Expr → Prop) (form : Form) : Prop :=
  (∃ e, Written e ∧ e.form = form) ∨ form.isLaid = true ∧ ∀ e ∈ form.parts, Written e

section

variable {es : List Expr} {e : Expr}

theorem WrittenIn.of_mem (h : e ∈ es) : WrittenIn es e := ⟨e, h, .refl⟩

theorem WrittenIn.part {d : Expr} (h : WrittenIn es e) (hpart : d ∈ e.form.parts) :
    WrittenIn es d := by
  obtain ⟨whole, hwhole, hcontains⟩ := h
  exact ⟨whole, hwhole, hcontains.tail hpart⟩

theorem Form.filterFree_part {form : Form} (h : form.filterFree = true) :
    ∀ e ∈ form.parts, e.filterFree = true := by
  cases form <;> simp_all [Form.filterFree, Form.parts, filterFreeAll_iff]

theorem WrittenIn.hereditary {P : Expr → Prop} (hes : ∀ d ∈ es, P d)
    (hparts : ∀ d, P d → ∀ part ∈ d.form.parts, P part) (h : WrittenIn es e) : P e := by
  obtain ⟨d, hd, hcontains⟩ := h
  induction hcontains with
  | refl => exact hes d hd
  | tail _ hpart ih => exact hparts _ ih _ hpart

theorem WrittenIn.filterFree (hes : filterFreeAll es = true) (h : WrittenIn es e) :
    e.filterFree = true := by
  refine h.hereditary (P := fun e => e.filterFree = true)
    (filterFreeAll_iff.mp hes) fun d hd part hpart => ?_
  obtain ⟨form, τ, l⟩ := d
  exact Form.filterFree_part hd part hpart

end

def Moved (Written : Expr → Prop) (e : Expr) : Prop := ∃ d, Written d ∧ ∃ l, e = d.at? l

section

variable {Written : Expr → Prop} {e : Expr}

theorem Moved.of_written (h : Written e) : Moved Written e := ⟨e, h, e.location, by cases e; rfl⟩

theorem Moved.at? (h : Moved Written e) {l : Option Location} : Moved Written (e.at? l) := by
  obtain ⟨d, hd, l', rfl⟩ := h
  exact ⟨d, hd, l, rfl⟩

theorem Moved.part (hparts : ∀ e, Written e → ∀ part ∈ e.form.parts, Written part)
    (h : Moved Written e) : ∀ part ∈ e.form.parts, Moved Written part := by
  obtain ⟨d, hd, l, rfl⟩ := h
  exact fun part hpart => .of_written (hparts d hd part hpart)

theorem Moved.filterFree (hfree : ∀ e, Written e → e.filterFree = true) (h : Moved Written e) :
    e.filterFree = true := by
  obtain ⟨d, hd, l, rfl⟩ := h
  exact Expr.filterFree_at?.trans (hfree d hd)

theorem Form.Formed.moved {form : Form} (h : form.Formed Written) : form.Formed (Moved Written) :=
  h.imp (fun ⟨e, he, hform⟩ => ⟨e, .of_written he, hform⟩) fun ⟨hlaid, hparts⟩ =>
    ⟨hlaid, fun e he => .of_written (hparts e he)⟩

end

/-! ### Twins -/

section

variable {Written : Expr → Prop} {form form' : Form}

/-- Whether what is written is the same to evaluation wherever it is the same. -/
def TwinsAlike (Written : Expr → Prop) : Prop :=
  ∀ e e', Written e → Written e' → e.same e' = true → e.gist .amount = e'.gist .amount

theorem TwinsAlike.list (h : TwinsAlike Written) :
    {es fs : List Expr} → (∀ e ∈ es, Written e) → (∀ e ∈ fs, Written e) →
    sameExprs es fs = true → gistAll .amount es = gistAll .amount fs
  | [], [], _, _, _ => rfl
  | e :: es, f :: fs, hes, hfs, hsame => by
    rw [sameExprs, Bool.and_eq_true] at hsame
    rw [gistAll, gistAll, h e f (hes e List.mem_cons_self) (hfs f List.mem_cons_self) hsame.1,
      h.list (fun e he => hes e (List.mem_cons_of_mem _ he))
        (fun e he => hfs e (List.mem_cons_of_mem _ he)) hsame.2]

theorem TwinsAlike.moved (h : TwinsAlike Written) : TwinsAlike (Moved Written) := by
  rintro _ _ ⟨⟨form, τ, l⟩, hd, place, rfl⟩ ⟨⟨form', τ', l'⟩, hd', place', rfl⟩ hsame
  exact h ⟨form, τ, l⟩ ⟨form', τ', l'⟩ hd hd' hsame

theorem Form.isLaid_literal {vs : List Atomic} :
    (Form.literal vs).isLaid = true ↔ vs = [] ∨ ∃ b, vs = [.boolean b] := by
  unfold Form.isLaid
  split <;> simp_all

theorem sameValues_laid {vs ws : List Atomic} (hsame : sameValues vs ws = true)
    (hlaid : (vs = [] ∨ ∃ b, vs = [.boolean b]) ∨ ws = [] ∨ ∃ b, ws = [.boolean b]) : vs = ws := by
  obtain (rfl | ⟨b, rfl⟩) | rfl | ⟨b, rfl⟩ := hlaid
  · cases ws <;> simp_all [sameValues]
  · obtain _ | ⟨w, _ | ⟨w', ws⟩⟩ := ws <;>
      simp only [sameValues, Bool.and_true, Bool.and_false, Bool.false_eq_true] at hsame
    cases w <;> simp_all [Atomic.same]
  · cases vs <;> simp_all [sameValues]
  · obtain _ | ⟨v, _ | ⟨v', vs⟩⟩ := vs <;>
      simp only [sameValues, Bool.and_true, Bool.and_false, Bool.false_eq_true] at hsame
    cases v <;> simp_all [Atomic.same]

theorem Form.gist_eq_of_parts (hsame : form.same form' = true)
    (hlaid : form.isLaid = true ∨ form'.isLaid = true)
    (hparts : sameExprs form.parts form'.parts = true →
      gistAll .amount form.parts = gistAll .amount form'.parts) : form.gist = form'.gist := by
  have hplain := fun h => gistAll_nothing_eq (hparts h)
  unfold Form.same at hsame
  split at hsame
  · next vs ws =>
    rw [isLaid_literal, isLaid_literal] at hlaid
    rw [sameValues_laid hsame hlaid]
  all_goals simp_all [Form.isLaid, Form.parts, Form.gist]

namespace Form.Formed

variable (hparts : ∀ e, Written e → ∀ part ∈ e.form.parts, Written part)

include hparts

theorem part (h : form.Formed Written) : ∀ e ∈ form.parts, Written e := by
  obtain ⟨e, he, rfl⟩ | ⟨-, h⟩ := h
  · exact hparts e he
  · exact h

/-- Forms that rules make of what is written are the same to evaluation where they are the same, if
what is written is. -/
theorem gist_eq (halike : TwinsAlike Written) (h : form.Formed Written) (h' : form'.Formed Written)
    (hsame : form.same form' = true) : form.gist = form'.gist := by
  have hlist := halike.list (h.part hparts) (h'.part hparts)
  obtain ⟨⟨form, τ, l⟩, he, rfl⟩ | ⟨hlaid, -⟩ := h
  · obtain ⟨⟨form', τ', l'⟩, he', rfl⟩ | ⟨hlaid, -⟩ := h'
    · exact congrArg Expr.form (halike _ _ he he' hsame)
    · exact gist_eq_of_parts hsame (.inr hlaid) hlist
  · exact gist_eq_of_parts hsame (.inl hlaid) hlist

end Form.Formed

end

/-! ### The rules -/

section

variable {Written : Expr → Prop} {opt : Optimizer} {scope : Scope} {host : Host}
    {t : StaticType} {e e' : Expr}

theorem Form.Formed.filterFree (hfree : ∀ e, Written e → e.filterFree = true)
    (h : e.form.Formed Written) : e.filterFree = true := by
  obtain ⟨form, τ, l⟩ := e
  obtain ⟨⟨form, τ', l'⟩, he, rfl⟩ | ⟨hlaid, hparts⟩ := h
  · exact hfree ⟨form, τ', l'⟩ he
  · have hparts := fun e he => hfree e (hparts e he)
    cases form <;> simp_all [Form.isLaid, Form.parts, Expr.filterFree, Form.filterFree,
      filterFreeAll_iff]

theorem Form.formed_of_written (h : Written e) : e.form.Formed Written := .inl ⟨e, h, rfl⟩

theorem Form.Formed.at? {l : Option Location} (h : e.form.Formed Written) :
    (e.at? l).form.Formed Written := h

theorem Form.formed_ofBool {b : Bool} : (Expr.ofBool b).form.Formed Written :=
  .inr ⟨rfl, fun _ he => absurd he List.not_mem_nil⟩

theorem Form.formed_empty : Expr.empty.form.Formed Written :=
  .inr ⟨rfl, fun _ he => absurd he List.not_mem_nil⟩

theorem Form.formed_ofPositionTest {test : PositionTest} :
    (Expr.ofPositionTest test).form.Formed Written := by
  cases test with
  | within w => exact .inr ⟨rfl, fun _ he => absurd he List.not_mem_nil⟩
  | never => exact formed_ofBool

theorem optimizePositionTest_formed (h : (optimizePositionTest e).Gives e')
    (he : e.form.Formed Written) : e'.form.Formed Written := by
  obtain rfl | ⟨-, -, -, -, place, -, ⟨test, -, rfl⟩ | ⟨-, rfl⟩⟩ := optimizePositionTest_cases h
  · exact he
  · exact Form.formed_ofPositionTest
  · exact .inr ⟨rfl, fun _ he => absurd he List.not_mem_nil⟩

theorem dropContextItems_subset : {es kept : List Expr} → (dropContextItems es).Gives kept →
    ∀ e ∈ kept, e ∈ es
  | [], kept, h => Logged.gives_pure.mp h ▸ fun _ he => he
  | [_], kept, h => Logged.gives_pure.mp h ▸ fun _ he => he
  | first :: second :: rest, kept, h => by
    obtain ⟨-, -, h⟩ | rfl := dropContextItems_cons h
    · exact fun e he => List.mem_cons_of_mem _ (dropContextItems_subset h e he)
    · exact fun _ he => he

theorem optimizeMap_formed {es : List Expr} {l : Option Location}
    (h : (optimizeMap scope es l).Gives e) (hes : ∀ e ∈ es, Written e) : e.form.Formed Written := by
  obtain ⟨kept, hkept, h⟩ := optimizeMap_cases h
  have hkept : ∀ e ∈ kept, Written e := by
    obtain rfl | ⟨-, hkept⟩ := hkept
    · exact hes
    · exact fun e he => hes e (dropContextItems_subset hkept e he)
  obtain ⟨operand, rfl, rfl⟩ | ⟨-, rfl⟩ | ⟨-, place, rfl⟩ := h
  · exact .inl ⟨operand, hkept operand List.mem_cons_self, rfl⟩
  · exact .inr ⟨rfl, hkept⟩
  · exact Form.formed_empty

section

variable (hparts : ∀ e, Written e → ∀ part ∈ e.form.parts, Written part)

include hparts

theorem flattenSteps_written (scope : Scope) : {steps : List Expr} → (∀ s ∈ steps, Written s) →
    ∀ s ∈ flattenSteps scope steps, Written s
  | [], _ => fun _ hs => absurd hs List.not_mem_nil
  | s :: ss, hsteps => by
    rw [flattenSteps_cons]
    intro d hd
    obtain hd | hd := List.mem_append.mp hd
    · obtain h | ⟨inner, τ, l, rfl, h⟩ := flattenSteps_single scope s
      · rw [h] at hd
        exact List.mem_singleton.mp hd ▸ hsteps s List.mem_cons_self
      · exact hparts _ (hsteps _ List.mem_cons_self) d (h ▸ hd)
    · exact flattenSteps_written scope (fun s hs => hsteps s (List.mem_cons_of_mem _ hs)) d hd

theorem optimizePath_none_formed {steps : List Expr} {l : Option Location}
    (h : (optimizePath scope none steps l).Gives e) (hsteps : ∀ s ∈ steps, Written s) :
    e.form.Formed Written := by
  have hsteps := flattenSteps_written hparts scope hsteps
  obtain ⟨-, rfl⟩ | ⟨hsingle, -⟩ | ⟨-, rfl⟩ | ⟨-, place, rfl⟩ := optimizePath_none_cases h
  · exact .inr ⟨rfl, fun _ he => absurd he List.not_mem_nil⟩
  · exact Form.formed_of_written (hsteps e (hsingle ▸ List.mem_cons_self))
  · exact .inr ⟨rfl, hsteps⟩
  · exact Form.formed_empty

theorem unwrapMap_formed (h : (unwrapMap scope host t e).Gives e') (he : e.form.Formed Written) :
    e'.form.Formed Written := by
  obtain rfl | ⟨first, second, rest, hform, -, -, h⟩ := unwrapMap_cases h
  · exact he
  · have hes : ∀ e ∈ second :: rest, Written e := fun e hmem =>
      he.part hparts e (by rw [hform]; exact List.mem_cons_of_mem _ hmem)
    obtain ⟨rfl, rfl⟩ | h := h
    · exact Form.formed_of_written (hes e' List.mem_cons_self)
    · exact optimizeMap_formed h hes

theorem unwrapPath_formed (h : (unwrapPath scope host t e).Gives e') (he : e.form.Formed Written) :
    e'.form.Formed Written := by
  obtain rfl | ⟨first, steps, hform, -, -, h⟩ := unwrapPath_cases h
  · exact he
  · have hsteps : ∀ s ∈ steps, Written s :=
      fun s hs => he.part hparts s (by rw [hform]; exact List.mem_cons_of_mem _ hs)
    obtain rfl | h := h
    · exact Form.formed_of_written (hsteps e' List.mem_cons_self)
    · exact optimizePath_none_formed hparts h hsteps

theorem selfStep?_written {test : NodeTest} {inner : List Expr}
    (h : selfStep? e = some (test, inner)) (he : e.form.Formed Written) :
    ∀ d ∈ inner, Written d := by
  obtain hform | ⟨τ, l, hform⟩ := selfStep?_cases h
  · exact fun d hd => he.part hparts d (by rw [hform]; exact hd)
  · have hstep : Written ⟨.step .self test inner, τ, l⟩ :=
      he.part hparts _ (by rw [hform]; exact List.mem_cons_self)
    exact hparts _ hstep

/-- What the rules leave of a predicate is formed of what is written, where no literal is put into
it. -/
theorem simplifyPredicate_formed {positional : Bool} {result : Host × List Expr}
    (h : (simplifyPredicate opt scope t positional host e).Gives result)
    (hinlined : ∀ root v, host = .root root → root.form ≠ .literal [v])
    (he : e.form.Formed Written) : (∀ root, result.1 = .root root → host = .root root) ∧
    ∀ e' ∈ result.2, e'.form.Formed Written := by
  obtain ⟨-, -, rfl⟩ | ⟨test, changed, htest, hchanged, h⟩ := simplifyPredicate_cases h
  · exact ⟨fun _ => id, by simp⟩
  have hformed := unwrapMap_formed hparts hchanged (optimizePositionTest_formed htest he)
  obtain ⟨axis, own, self, both, inner, -, -, rfl, hself, -, rfl⟩ | ⟨-, -, -, -, rfl⟩ | h := h
  · exact ⟨nofun, fun d hd => Form.formed_of_written (selfStep?_written hparts hself hformed d hd)⟩
  · exact ⟨fun _ => id, by simp⟩
  · obtain ⟨unwrapped, inlined, place, hunwrapped, hroot, rfl⟩ := finishPredicate_cases h
    obtain rfl | ⟨root, v, hhost, hliteral, -⟩ := inlineRoot_cases hroot
    · exact ⟨fun _ => id, List.forall_mem_singleton.mpr
        (unwrapPath_formed hparts hunwrapped hformed).at?⟩
    · exact absurd hliteral (hinlined root v hhost)

theorem simplifyPredicates_formed {positional : Bool} :
    {es : List Expr} → {host : Host} → {result : Host × List Expr} →
    (simplifyPredicates opt scope t positional host es).Gives result →
    (∀ root v, host = .root root → root.form ≠ .literal [v]) → (∀ e ∈ es, e.form.Formed Written) →
    ∀ e' ∈ result.2, e'.form.Formed Written
  | [], host, result, h, _, _ => by
    obtain rfl := Logged.gives_pure.mp h
    simp
  | e :: es, host, result, h, hinlined, hes => by
    simp only [simplifyPredicates, Logged.gives_bind, Logged.gives_pure] at h
    obtain ⟨⟨host', simplified⟩, hfirst, ⟨host'', rest⟩, hrest, rfl⟩ := h
    obtain ⟨hroot, hsimplified⟩ :=
      simplifyPredicate_formed hparts hfirst hinlined (hes e List.mem_cons_self)
    exact List.forall_mem_append.mpr
      ⟨hsimplified, simplifyPredicates_formed hrest (fun root v h => hinlined root v (hroot root h))
      fun e he => hes e (List.mem_cons_of_mem _ he)⟩

end

end

end TreeQuery
