import TreeQuery.Eval.Operation
import TreeQuery.Cursor.Chain
import TreeQuery.Cursor.Check
import TreeQuery.Expr.Dependency
/-!
# Evaluation of expressions

The meaning of an expression in an environment, by recursion on the expression. `Expr.iterate` gives
a cursor for its value and `Expr.value` the whole value; they differ for type checks, which the
first makes item by item and the second on the complete sequence. `Expr.test` is the truth of a
predicate with its score. How a function item is called is a parameter; `callWithin` supplies it,
down to a depth of nested calls.
-/

namespace TreeQuery

mutual

def Expr.iterate (call : Caller) (env : Env) : Expr → Run Cursor
  | ⟨form, _, location⟩ => (form.iterate call env location).locate location

def Expr.value (call : Caller) (env : Env) : Expr → Run (List Item)
  | ⟨.check operand target promote, _, location⟩ => do
    let items ← operand.value call env
    checkSequence env.forest target promote location items
  | ⟨form, _, location⟩ => do
    let cursor ← (form.iterate call env location).locate location
    cursor.drain env.scoring

def Expr.truth (call : Caller) (env : Env) : Expr → Run Bool
  | ⟨form, _, location⟩ => do
    let cursor ← (form.iterate call env location).locate location
    cursor.truth env.scoring location

/-- The score of an expression as a predicate, `none` if it does not hold. Only full-text search
scores above zero. -/
def Expr.test (call : Caller) (env : Env) : Expr → Run (Option Number)
  | ⟨.position w, _, _⟩ => return if w.contains env.focus.position then some .zero else none
  | ⟨.containsText input query, _, location⟩ => do
    let m ← (env.search (query.value call env) (input.iterate call env)).locate location
    return if m.found then some (m.score.getD .zero) else none
  | ⟨form, _, location⟩ => do
    let cursor ← (form.iterate call env location).locate location
    let holds ← cursor.predicateTruth env.scoring location env.focus.position
    return if holds then some .zero else none

def Form.iterate (call : Caller) (env : Env) (location : Option Location) : Form → Run Cursor
  | .literal values => return .ofList (values.map .atomic)
  | .function f => return .single (.function f)
  | .contextItem => Cursor.single <$> env.contextItem
  | .position w => return .ofBool (w.contains env.focus.position)
  | .conjunction operands => Cursor.ofBool <$> allTrue call env operands
  | .disjunction operands => Cursor.ofBool <$> anyTrue call env operands
  | .comparison style op left right => do
    let l ← left.value call env
    let l ← Logged.lift (atomizeAll env.forest l)
    let r ← right.value call env
    let r ← Logged.lift (atomizeAll env.forest r)
    Cursor.ofList <$> Logged.lift (compareAtomics style op l r)
  | .call f args => callBuiltin call env f args
  | .step axis test predicates => do
    match ← env.contextItem with
    | .node n =>
      let nodes := (env.forest.axisNodes n axis).filter (test.passes env.forest)
      let kept ← (Cursor.ofList (nodes.map .node)).filterBy env predicates
        (fun env => meanTest call env predicates.length .zero predicates)
        (fun items => filterInTurn call env items predicates)
      if axis.isReverse then
        let scored ← kept.drainScored env.scoring
        return .ofScored (scored.reverse.map fun (item, score) =>
          (item, if env.scoring then some score else none))
      else return kept
    | item => Logged.failWith (.stepOnOther item.render)
  | .path root steps => do
    let cursor ← root.iterate call env
    followSteps call env cursor root.type.atMostOne steps
  | .relativePath steps => do
    let item ← env.contextItem
    followSteps call env (.single item) true steps
  | .map [] => Logged.failWith .emptyMap
  | .map (first :: rest) => do
    let cursor ← first.iterate call env
    followMaps call env cursor rest
  | .filter root predicates => do
    let cursor ← root.iterate call env
    cursor.filterBy env predicates (fun env => meanTest call env predicates.length .zero predicates)
      (fun items => filterInTurn call env items predicates)
  | .containsText input query => do
    let m ← env.search (query.value call env) (input.iterate call env)
    return .ofBool m.found
  | .conditional condition yes no => do
    if ← condition.truth call env then yes.iterate call env else no.iterate call env
  | .reference v => Cursor.ofList <$> env.lookup v location
  | .apply f args => do
    match ← f.value call env with
    | [.function f] =>
      let args ← valuesOf call env args
      Cursor.ofList <$> call env f args location
    | items => Logged.failWith (.notOneFunction items.length)
  | .check operand target promote => do
    let cursor ← operand.iterate call env
    return cursor.check ⟨target, promote, location⟩ env.forest 0
  | .failure e => Logged.fail (.error e)

def callBuiltin (call : Caller) (env : Env) (f : Builtin) : List Expr → Run Cursor
  | [] =>
    match f with
    | .position => Cursor.ofNat <$> env.contextPosition
    | .last => Cursor.ofNat <$> env.contextSize
    | f => Logged.failWith (.missingArgument 1 f)
  | arg :: args =>
    match f with
    | .boolean => Cursor.ofBool <$> arg.truth call env
    | .not => do
      let b ← arg.truth call env
      return .ofBool (!b)
    | .exists => do
      let first ← (← arg.iterate call env).first? env.scoring
      return .ofBool first.isSome
    | .empty => do
      let first ← (← arg.iterate call env).first? env.scoring
      return .ofBool first.isNone
    | .count => do
      let n ← (← arg.iterate call env).count env.scoring
      return .ofNat n
    | .position => Cursor.ofNat <$> env.contextPosition
    | .last => Cursor.ofNat <$> env.contextSize
    | .trace => do
      let items ← arg.value call env
      let label ← labelOf call env args
      Logged.write { label, text := ", ".intercalate (items.map Item.render) }
      return .ofList items

/-- The label of a trace: the texts of the first expression's values, with blanks between them. -/
def labelOf (call : Caller) (env : Env) : List Expr → Run String
  | [] => return ""
  | label :: _ => do
    let texts ← env.texts (← label.value call env)
    return " ".intercalate texts

def allTrue (call : Caller) (env : Env) : List Expr → Run Bool
  | [] => return true
  | e :: es => do
    if ← e.truth call env then allTrue call env es else return false

def anyTrue (call : Caller) (env : Env) : List Expr → Run Bool
  | [] => return false
  | e :: es => do
    if ← e.truth call env then return true else anyTrue call env es

def valuesOf (call : Caller) (env : Env) : List Expr → Run (List (List Item))
  | [] => return []
  | e :: es => do
    let items ← e.value call env
    let rest ← valuesOf call env es
    return items :: rest

/-- The nodes that steps lead to. After a step from possibly many items the nodes are put into
document order. -/
def followSteps (call : Caller) (env : Env) (cursor : Cursor) (atMostOne : Bool) :
    List Expr → Run Cursor
  | [] => return cursor
  | step :: steps => do
    let cursor ← cursor.follow env step true fun env => step.iterate call env
    if atMostOne then followSteps call env cursor step.type.atMostOne steps
    else
      let items ← cursor.drain env.scoring
      let ordered ← Logged.ofOutcome (documentOrder env.forest items)
      followSteps call env (.ofList ordered) false steps

/-- The items of a map: the values of each operand for the items of the one before. -/
def followMaps (call : Caller) (env : Env) (cursor : Cursor) : List Expr → Run Cursor
  | [] => return cursor
  | operand :: operands => do
    let cursor ← cursor.follow env operand false fun env => operand.iterate call env
    followMaps call env cursor operands

/-- The mean of a total and the scores of predicates, `none` as soon as one does not hold. -/
def meanTest (call : Caller) (env : Env) (count : Nat) (total : Number) :
    List Expr → Run (Option Number)
  | [] => return some (if count = 0 then .zero else total.divideBy .double count)
  | e :: es => do
    match ← e.test call env with
    | some score => meanTest call env count (total.add .double score) es
    | none => return none

/-- The items that pass predicates one after the other, each numbered anew among those that are
left. -/
def filterInTurn (call : Caller) (env : Env) (items : List (Item × Number)) :
    List Expr → Run (List (Item × Number))
  | [] => return items
  | e :: es => do
    let kept ← keepScored
      (fun size position item => e.test call (env.focusOn (some size) env.scoring position item))
      items.length 0 items
    filterInTurn call env kept es

end

end TreeQuery
