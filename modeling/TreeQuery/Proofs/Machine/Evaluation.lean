import TreeQuery.Eval.Call
import TreeQuery.Proofs.Machine.Tracking
/-!
# Evaluation on the machine

All cursors of an evaluation share one focus, one function frame and one scoring flag. Predicates
and operands are evaluated with an item in focus, bodies of functions in a frame of their own and
without a focus; the old ones are put back afterwards, whatever the outcome.
-/

namespace TreeQuery

/-- How function items are called on the machine. -/
abbrev Callee := FunctionItem → List (List Item) → Option Location → Machine (List Item)

namespace Live

def follow (operand : Expr) (nodesOnly : Bool) (iterate : Machine Live) (c : Live) : Machine Live :=
  let accept : Item → Except Failure Unit :=
    if nodesOnly then admitNode operand.location else fun _ => .ok ()
  let start (size : Option Nat) (position : Nat) (item : Item) : Machine Live :=
    iterate.withFocus ⟨some item, position, size⟩
  if operand.dependsOn .position then do
    let items ← c.drain
    return (ofList items).chain accept (start (some items.length)) 0
  else return c.chain accept (start none) 0

/-- The items of a cursor that pass all predicates: `judge` puts one item in focus, `inTurn` applies
predicate after predicate. -/
def filterBy (predicates : List Expr) (judge : Nat → Item → Machine (Option Number))
    (inTurn : List (Item × Number) → Machine (List (Item × Number))) (c : Live) : Machine Live :=
  if predicates.isEmpty then return c
  else if !predicates.any Expr.isPositional then return c.select judge 0
  else
    match leadingWindow? predicates with
    | some w => return c.window w judge 0
    | none => do
      let items ← c.drain
      let kept ← inTurn (items.map fun item => (item, .zero))
      let scoring ← Machine.read Env.scoring
      return ofScored (meanScores scoring predicates.length kept)

end Live

namespace Machine

def keepScored (judge : Nat → Nat → Item → Machine (Option Number)) (size pos : Nat) :
    List (Item × Number) → Machine (List (Item × Number))
  | [] => return []
  | (item, total) :: rest => do
    let verdict ← judge size (pos + 1) item
    let kept ← keepScored judge size (pos + 1) rest
    match verdict with
    | some score => return (item, total.add .double score) :: kept
    | none => return kept

def search (query : Machine (List Item)) (input : Machine Live) : Machine TextMatch := do
  let matcher ← look Env.requireMatcher
  let items ← query
  let words ← look fun env => env.texts items
  let c ← input
  let forest ← read Env.forest
  c.fold (fun best item _ => do
    let v ← Logged.lift (item.atomize forest)
    let m ← Logged.lift (matcher v.lexical words)
    return best.best m) .miss

mutual

/-- Opens a cursor for an expression in the focus that the machine has. -/
def iterate (call : Callee) : Expr → Machine Live
  | ⟨form, _, location⟩ => (iterateForm call location form).locate location

def value (call : Callee) : Expr → Machine (List Item)
  | ⟨.check operand target promote, _, location⟩ => do
    let items ← value call operand
    look fun env => checkSequence env.forest target promote location items
  | ⟨form, _, location⟩ => do
    let c ← (iterateForm call location form).locate location
    c.drain

def truth (call : Callee) : Expr → Machine Bool
  | ⟨form, _, location⟩ => do
    let c ← (iterateForm call location form).locate location
    c.truth location

def test (call : Callee) (position : Nat) : Expr → Machine (Option Number)
  | ⟨.position w, _, _⟩ => return if w.contains position then some .zero else none
  | ⟨.containsText input query, _, location⟩ => do
    let m ← (search (value call query) (iterate call input)).locate location
    return if m.found then some (m.score.getD .zero) else none
  | ⟨form, _, location⟩ => do
    let c ← (iterateForm call location form).locate location
    let holds ← c.predicateTruth location position
    return if holds then some .zero else none

def iterateForm (call : Callee) (location : Option Location) : Form → Machine Live
  | .literal values => return .ofList (values.map .atomic)
  | .function f => return .single (.function f)
  | .contextItem => Live.single <$> look Env.contextItem
  | .position w => do
    let focus ← read Env.focus
    return .ofBool (w.contains focus.position)
  | .conjunction operands => Live.ofBool <$> allTrue call operands
  | .disjunction operands => Live.ofBool <$> anyTrue call operands
  | .comparison style op left right => do
    let l ← value call left
    let l ← look fun env => Logged.lift (atomizeAll env.forest l)
    let r ← value call right
    let r ← look fun env => Logged.lift (atomizeAll env.forest r)
    Live.ofList <$> look fun _ => Logged.lift (compareAtomics style op l r)
  | .call f args => callBuiltin call f args
  | .step axis test predicates => do
    match ← look Env.contextItem with
    | .node n =>
      let forest ← read Env.forest
      let nodes := (forest.axisNodes n axis).filter (test.passes forest)
      let kept ← (Live.ofList (nodes.map .node)).filterBy predicates
        (fun position item => (meanTest call position predicates.length .zero predicates).withFocus
          ⟨some item, position, none⟩)
        (fun items => filterInTurn call items predicates)
      if axis.isReverse then
        let scored ← kept.drainScored
        let scoring ← read Env.scoring
        return .ofScored (scored.reverse.map fun (item, score) =>
          (item, if scoring then some score else none))
      else return kept
    | item => look fun _ => Logged.failWith (.stepOnOther item.render)
  | .path root steps => do
    let c ← iterate call root
    followSteps call c root.type.atMostOne steps
  | .relativePath steps => do
    let item ← look Env.contextItem
    followSteps call (.single item) true steps
  | .map [] => look fun _ => Logged.failWith .emptyMap
  | .map (first :: rest) => do
    let c ← iterate call first
    followMaps call c rest
  | .filter root predicates => do
    let c ← iterate call root
    c.filterBy predicates
      (fun position item => (meanTest call position predicates.length .zero predicates).withFocus
        ⟨some item, position, none⟩)
      (fun items => filterInTurn call items predicates)
  | .containsText input query => do
    let m ← search (value call query) (iterate call input)
    return .ofBool m.found
  | .conditional condition yes no => do
    if ← truth call condition then iterate call yes else iterate call no
  | .reference v => Live.ofList <$> look fun env => env.lookup v location
  | .apply f args => do
    match ← value call f with
    | [.function f] =>
      let args ← valuesOf call args
      Live.ofList <$> call f args location
    | items => look fun _ => Logged.failWith (.notOneFunction items.length)
  | .check operand target promote => do
    let c ← iterate call operand
    return c.check ⟨target, promote, location⟩ 0
  | .failure e => look fun _ => Logged.fail (.error e)

def callBuiltin (call : Callee) (f : Builtin) : List Expr → Machine Live
  | [] =>
    match f with
    | .position => Live.ofNat <$> look Env.contextPosition
    | .last => Live.ofNat <$> look Env.contextSize
    | f => look fun _ => Logged.failWith (.missingArgument 1 f)
  | arg :: args =>
    match f with
    | .boolean => Live.ofBool <$> truth call arg
    | .not => do
      let b ← truth call arg
      return .ofBool (!b)
    | .exists => do
      let first ← (← iterate call arg).first?
      return .ofBool first.isSome
    | .empty => do
      let first ← (← iterate call arg).first?
      return .ofBool first.isNone
    | .count => do
      let n ← (← iterate call arg).count
      return .ofNat n
    | .position => Live.ofNat <$> look Env.contextPosition
    | .last => Live.ofNat <$> look Env.contextSize
    | .trace => do
      let items ← value call arg
      let label ← labelOf call args
      look fun _ => Logged.write { label, text := ", ".intercalate (items.map Item.render) }
      return .ofList items

def labelOf (call : Callee) : List Expr → Machine String
  | [] => return ""
  | label :: _ => do
    let items ← value call label
    let texts ← look fun env => env.texts items
    return " ".intercalate texts

def allTrue (call : Callee) : List Expr → Machine Bool
  | [] => return true
  | e :: es => do
    if ← truth call e then allTrue call es else return false

def anyTrue (call : Callee) : List Expr → Machine Bool
  | [] => return false
  | e :: es => do
    if ← truth call e then return true else anyTrue call es

def valuesOf (call : Callee) : List Expr → Machine (List (List Item))
  | [] => return []
  | e :: es => do
    let items ← value call e
    let rest ← valuesOf call es
    return items :: rest

def followSteps (call : Callee) (c : Live) (atMostOne : Bool) : List Expr → Machine Live
  | [] => return c
  | step :: steps => do
    let c ← c.follow step true (iterate call step)
    if atMostOne then followSteps call c step.type.atMostOne steps
    else
      let items ← c.drain
      let ordered ← look fun env => Logged.ofOutcome (documentOrder env.forest items)
      followSteps call (.ofList ordered) false steps

def followMaps (call : Callee) (c : Live) : List Expr → Machine Live
  | [] => return c
  | operand :: operands => do
    let c ← c.follow operand false (iterate call operand)
    followMaps call c operands

def meanTest (call : Callee) (position count : Nat) (total : Number) :
    List Expr → Machine (Option Number)
  | [] => return some (if count = 0 then .zero else total.divideBy .double count)
  | e :: es => do
    match ← test call position e with
    | some score => meanTest call position count (total.add .double score) es
    | none => return none

def filterInTurn (call : Callee) (items : List (Item × Number)) :
    List Expr → Machine (List (Item × Number))
  | [] => return items
  | e :: es => do
    let kept ← keepScored
      (fun size position item => (test call position e).withFocus ⟨some item, position, some size⟩)
      items.length 0 items
    filterInTurn call kept es

end

/-- Calls a function, whose body `body` evaluates in a frame of its own and without a focus. -/
def callWith (body : Expr → Machine (List Item)) (args : List (List Item))
    (location : Option Location) : FunctionItem → Machine (List Item)
  | .inline name signature params e =>
    let f := FunctionItem.inline name signature params e
    if args.length ≠ f.arity then look fun _ =>
      (Logged.failWith (.wrongArguments f.render args.length)).locate location
    else do
      let locals ← look fun env => env.bindParams location params args
      ((body e).withFocus .none).withLocals locals
  | .coerced name signature inner =>
    let f := FunctionItem.coerced name signature inner
    if args.length ≠ f.arity then look fun _ =>
      (Logged.failWith (.wrongArguments f.render args.length)).locate location
    else do
      let args ← look fun env => checkArguments env location args signature.params
      let result ← callWith body args location inner
      look fun env => checkSequence env.forest signature.result true location result

def callWithin : Nat → Callee
  | 0 => fun _ _ _ => look fun _ => Logged.fail .aborted
  | depth + 1 => fun f args location => callWith (value (callWithin depth)) args location f

/-- Tests an item against all predicates, which is in focus meanwhile; the mean score if all of them
hold. -/
def judge (call : Callee) (predicates : List Expr) (item : Item) (position : Nat)
    (size : Option Nat) : Machine (Option Number) :=
  (meanTest call position predicates.length .zero predicates).withFocus ⟨some item, position, size⟩

end Machine

end TreeQuery
