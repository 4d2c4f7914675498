import TreeQuery.Query
import TreeQuery.Proofs.Compile.Expression
import TreeQuery.Proofs.Eval.Promise
/-!
# The size of the focus is known where it is asked for

Where items stream, their number is not known, and asking for it would fail. Operands and predicates
get such a focus only if they do not depend on the position, so the size is never asked for there
(`Query.size_known`): a failure that is reported as one for an unknown size can only be one that the
query raises by itself, with just that code and message.
-/

namespace TreeQuery

/-! ### Failures that are reported alike -/

/-- Whether the error is reported with the code and the message of a cause. -/
def Error.ReadsAs (e : Error) (c : Cause) : Prop := e.code = c.code ∧ e.message = c.message

theorem Cause.message_notConstant_ne (text : String) :
    (Cause.notConstant text).message ≠ Cause.sizeUnknown.message := by
  intro h
  have last : (text ++ " is not a constant").toList.getLast? =
      "context size is not available".toList.getLast? :=
    congrArg (fun s : String => s.toList.getLast?) h
  have own : " is not a constant".toList.getLast? = some 't' := by decide
  rw [String.toList_append, List.getLast?_append, own, Option.some_or] at last
  exact absurd last (by decide)

theorem Error.Ordinary.not_readsAs {e : Error} (h : e.Ordinary) : ¬e.ReadsAs .sizeUnknown := by
  obtain ⟨cause, phase, location, detail⟩ := e
  rintro ⟨hcode, hmessage⟩
  simp only [code, message] at hcode hmessage
  cases cause with
  | unbound | contextAbsent | sizeUnknown | raised => exact h
  | notConstant text => exact Cause.message_notConstant_ne text hmessage
  | unorderable | emptyMap => exact absurd hmessage (by decide)
  | _ => simp [Cause.code, Cause.errorCode, ErrorCode.name, ErrorCode.symbol] at hcode

theorem Error.Static.not_readsAs {e : Error} (h : e.Static) : ¬e.ReadsAs .sizeUnknown := by
  rcases h with h | h
  · exact h.not_readsAs
  · rintro ⟨hcode, -⟩
    rw [code, h] at hcode
    exact absurd hcode (by decide)

/-! ### Compilation -/

/-- The deferred failures that are reported as an unknown size have causes in `F`. -/
def Demand.sized (F : Cause → Prop) : Demand Unit where
  enter _ _ := ()
  node _ form _ := match form with
    | .failure e => e.ReadsAs .sizeUnknown → F e.cause
    | _ => True

/-- The same of expressions that are to be compiled, whose coerced functions stay as they are. -/
def Demand.sizedSource (F : Cause → Prop) : Demand Unit where
  enter _ _ := ()
  node _ form _ := match form with
    | .failure e => e.ReadsAs .sizeUnknown → F e.cause
    | .function (.coerced _ _ inner) => inner.Satisfies (.sized F) ()
    | _ => True

section Compile

variable {F : Cause → Prop}

theorem sizedSource_of_sized {a : Unit} {form : Form} {τ : StaticType}
    (h : (Demand.sized F).node a form τ) (hform : form.Satisfies (.sized F) a) :
    (Demand.sizedSource F).node a form τ := by
  cases form with
  | failure e => exact h
  | function f =>
    cases f with
    | inline name s params body => trivial
    | coerced name s inner => exact hform
  | _ => trivial

/-- Compilation defers failures, but none for an unknown size. -/
theorem transfer_sized : Transfer (.sizedSource F) (.sized F) fun _ _ => True where
  enter := rfl
  inline := rfl
  withFocus _ _ := trivial
  withVariables _ _ := trivial
  ordinary _ form h := by
    cases form with
    | failure e => exact absurd h not_false
    | _ => trivial
  leaf {a form τ} _ h := by
    cases form with
    | failure e => exact h
    | _ => trivial
  contextItem _ _ := trivial
  path _ _ _ _ := trivial
  relativePath _ _ _ := trivial
  stepless _ _ _ _ _ := trivial
  rootless _ := trivial
  compiled _ _ _ _ := trivial
  recast _ _ := trivial
  deferred _ _ he _ hreads := absurd hreads he.not_readsAs
  reference _ _ _ := trivial
  conditional _ _ _ _ := trivial
  coerced h := h
  again _ _ _ h hform := sizedSource_of_sized h hform
  inlined {a form τ} h value := by
    cases form with
    | map es => cases es <;> trivial
    | failure e => exact h
    | function f => exact h
    | _ => trivial

theorem Query.compile_sized {s : StaticContext} {e : Expr} {q : Query}
    (he : e.Satisfies (.sized F) ()) (hq : compile s e = .ok q) :
    q.expr.Satisfies (.sized F) () := by
  have hsource : e.Satisfies (.sizedSource F) () := by
    refine Expr.Satisfies.weaken ?_ ?_ (fun _ _ _ h hform => sizedSource_of_sized h hform) he
    · rfl
    · exact fun _ _ h => h
  exact Query.compile_satisfies transfer_sized trivial hsource hq

end Compile

/-! ### Evaluation -/

/-- The promise that no failure is reported as an unknown size but with a cause in `F`: neither now
nor by a function that is delivered. -/
def Promise.sized (F : Cause → Prop) : Promise :=
  ⟨fun _ => True, fun item => ∀ f, item = .function f → f.Satisfies (.sized F) (),
    fun failure => ∀ e, failure = .error e → e.ReadsAs .sizeUnknown → F e.cause⟩

section Evaluate

variable {F : Cause → Prop}

theorem Promise.sized_lawful : (sized F).Lawful where
  node _ _ hf := by cases hf
  atomic _ _ hf := by cases hf
  coerce hg h _ hf := Item.function.inj hf ▸ (h _ rfl).coerce hg
  remark _ _ := trivial
  error he e' heq hreads := absurd hreads ((Failure.error.inj heq ▸ he).not_readsAs)
  aborted e h := by cases h
  placeless f l h e he hreads := by
    cases f with
    | error e' =>
      obtain rfl : e'.locate l = e := Failure.error.inj he
      exact h e' rfl hreads
    | aborted => cases he

theorem Promise.sized_contextAbsent : (Promise.sized F).failure (.of .contextAbsent) :=
  fun _ he hreads =>
  absurd hreads (Failure.error.inj he ▸ Error.static_contextAbsent.not_readsAs)

/-- An environment whose focus knows its size, with functions and a matcher that keep the
promise. -/
structure Env.Sized (F : Cause → Prop) (env : Env) : Prop where
  size : env.focus.item.isSome → env.focus.size.isSome
  focus : ∀ item, env.focus.item = some item → (Promise.sized F).item item
  globals : ∀ name value, env.globals.lookup name = some value → (Promise.sized F).items value
  locals : ∀ name value, env.locals.lookup name = some value → (Promise.sized F).items value
  matcher : ∀ m, env.matcher = some m →
    ∀ text words, Raises (fun e => (Promise.sized F).failure (.error e)) (m text words)

theorem Env.Sized.contextSize {env : Env} (henv : env.Sized F) :
    env.contextSize.Keeps (.sized F) fun _ => True := by
  unfold Env.contextSize
  split
  · exact .pure trivial
  · next hitem hsize =>
    have := henv.size (by rw [hitem]; rfl)
    rw [hsize] at this
    cases this
  · exact .fail Promise.sized_contextAbsent

structure Caller.Sized (F : Cause → Prop) (call : Caller) : Prop where
  blind : call.IgnoresFocus
  keeps : ∀ {env f args} l, env.Sized F → f.Satisfies (.sized F) () →
    (∀ arg ∈ args, (Promise.sized F).items arg) →
    (call env f args l).Keeps (.sized F) (Promise.sized F).items

theorem policy_sized {call : Caller} (hcall : call.Sized F) :
    Policy (.sized F) call (.sized F) () (Env.Sized F) where
  lawful := Promise.sized_lawful
  focus henv := henv.focus _
  absent _ _ := Promise.sized_contextAbsent
  focusOn henv hitem _ _ _ :=
    ⟨fun _ => rfl, fun _ h => Option.some.inj h ▸ hitem, henv.globals, henv.locals, henv.matcher⟩
  streamed := .inr hcall.blind
  size henv := henv.contextSize
  matcher henv := henv.matcher _
  function _ h _ hf := Item.function.inj hf ▸ h
  failure h _ he := Failure.error.inj he ▸ h
  reference {env v _} henv _ l :=
    env.lookup_keeps Promise.sized_lawful l (henv.locals _)
        (henv.globals _) fun _ _ e he hreads => by
      obtain rfl := Failure.error.inj he
      exact absurd hreads.1
        (by simp [Error.code, Error.of, Cause.code, Cause.errorCode, ErrorCode.name,
        ErrorCode.symbol])
  trace _ _ _ := trivial
  apply henv _ hg hargs l := hcall.keeps l henv (hg _ rfl) hargs

theorem callWithin_sized : (depth : Nat) → (callWithin depth).Sized F
  | 0 => ⟨callWithin_ignoresFocus 0, fun _ _ _ _ => .fail Promise.sized_lawful.aborted⟩
  | depth + 1 => by
    refine ⟨callWithin_ignoresFocus (depth + 1), fun l henv hf hargs => ?_⟩
    refine FunctionItem.callWith_keeps Promise.sized_lawful _ hf
      (fun s params locals _ hbody _ hlocals => ?_) hargs
    -- the body has no focus at all
    have hinner : (Env.enter _ locals).Sized F :=
      ⟨nofun, nofun, henv.globals, hlocals, henv.matcher⟩
    exact Expr.value_keeps (policy_sized (callWithin_sized depth)) _ hinner hbody

/-- What functions and a matcher that are supplied raise by themselves as an unknown size has causes
in `F`. -/
structure Context.Sized (F : Cause → Prop) (c : Context) : Prop where
  item : ∀ item, c.item = some item → (Promise.sized F).item item
  globals : ∀ name value, c.globals.lookup name = some value → (Promise.sized F).items value
  matcher : ∀ m, c.matcher = some m →
    ∀ text words, Raises (fun e => (Promise.sized F).failure (.error e)) (m text words)

theorem Context.Sized.env {c : Context} (hc : c.Sized F) (scoring : Bool) :
    ((Env.ofContext c).withScoring scoring).Sized F where
  size := by cases hitem : c.item <;> simp [Env.ofContext, Env.withScoring, Focus.ofItem?,
    Focus.none, hitem]
  focus item hfocus := by
    refine hc.item item ?_
    cases hitem : c.item <;> simp_all [Env.ofContext, Env.withScoring, Focus.ofItem?, Focus.none]
  globals := hc.globals
  locals _ _ h := by cases h
  matcher := hc.matcher

/-- The size of the focus is known wherever it is asked for. No query, compiled or not, fails for an
unknown size in any context: neither its evaluation, with or without scores, nor any pull on its
cursor. A failure that is reported alike has one of the causes in `F`, which are to contain those of
the failures that stand in the query or in what is supplied and read so. -/
theorem Query.size_known {F : Cause → Prop} {q : Query} {c : Context} (hc : c.Sized F)
    (hq : q.expr.Satisfies (.sized F) () ∨ ∃ s e, e.Satisfies (.sized F) () ∧ compile s e = .ok q) :
    (q.stream c).Keeps (.sized F) (Cursor.Keeps (.sized F)) ∧
    (q.evaluate c).Keeps (.sized F) (Promise.sized F).items ∧
    (q.evaluateScored c).Keeps (.sized F) fun scored =>
    ∀ entry ∈ scored, (Promise.sized F).item entry.1 := by
  have hnodes : q.expr.Satisfies (.sized F) () := by
    rcases hq with hq | ⟨s, e, he, hq⟩
    · exact hq
    · exact Query.compile_sized he hq
  have hpolicy := policy_sized (callWithin_sized (F := F) c.callDepth)
  have iterate (scoring : Bool) := Expr.iterate_keeps hpolicy q.expr (hc.env scoring) hnodes
  refine ⟨iterate c.scoring, ?_, ?_⟩
  · exact (iterate c.scoring).bind fun cursor hcursor =>
      Cursor.drain_keeps Promise.sized_lawful hcursor
  · exact (iterate true).bind fun cursor hcursor =>
      Cursor.drainScored_keeps Promise.sized_lawful hcursor

/-- The last of three operands asks for the size of its focus, and gets to know it although the
second one streams. -/
theorem Query.size_known_last :
    let e : Expr :=
    .of (.map [.literal [.integer 10, .integer 20], .of (.filter .contextItem [.ofBool true]),
      .of (.call .last [])])
    let c : Context := { forest := .empty false }
    let two : Item := .atomic (.integer 2)
    ∃ q, compile {} e = .ok q ∧ (q.evaluate c).Gives [two, two] ∧
      (q.stream c).Keeps (.sized fun _ => False) (Cursor.Keeps (.sized fun _ => False)) ∧
      (q.evaluate c).Keeps (.sized fun _ => False) (Promise.sized fun _ => False).items ∧
      (q.evaluateScored c).Keeps (.sized fun _ => False) fun scored =>
        ∀ entry ∈ scored, (Promise.sized fun _ => False).item entry.1 := by
  intro e c two
  have supplied : c.Sized fun _ => False := ⟨nofun, nofun, nofun⟩
  have nodes : e.Satisfies (.sized fun _ => False) () :=
    ⟨trivial, ⟨trivial, trivial⟩, ⟨trivial, ⟨trivial, trivial⟩, ⟨trivial, trivial⟩, trivial⟩,
      ⟨trivial, trivial⟩, trivial⟩
  exact ⟨_, rfl, rfl, Query.size_known supplied (.inr ⟨{}, e, nodes, rfl⟩)⟩

end Evaluate

end TreeQuery
