import TreeQuery.Eval.Environment
import TreeQuery.Cursor.Filter
import TreeQuery.Cursor.Chain
import TreeQuery.Expr.Dependency
import TreeQuery.Atomic.Compare
import TreeQuery.Tree.DocumentOrder
/-!
# Operations on values

The parts of evaluation that work on cursors and values alone: truth, comparison, the order of
paths, full-text search and the bookkeeping of filters.
-/

namespace TreeQuery

def severalAtomic : String := "a sequence of two or more items starting with an atomic value"

namespace Cursor

def expectEnd (scoring : Bool) (c : Cursor) : Run Unit := do
  match ← c.first? scoring with
  | .none => return ()
  | some _ => Logged.failWith (.truthUndefined severalAtomic)

/-- The single atomic value or the first node that decides the truth of a sequence; `none` for the
empty one. -/
def decider (scoring : Bool) (location : Option Location) (c : Cursor) : Run (Option Item) := do
  match ← c.first? scoring with
  | .none => return none
  | some (.node n, _) => return some (.node n)
  | some (.atomic v, rest) =>
    (rest.expectEnd scoring).locate location
    return some (.atomic v)
  | some (.function f, _) =>
    (Logged.failWith (.truthUndefined ("function item " ++ f.render))).locate location

/-- The effective boolean value: nodes are true, a single atomic value decides for itself. -/
def truth (scoring : Bool) (location : Option Location) (c : Cursor) : Run Bool := do
  match ← c.decider scoring location with
  | some (.atomic v) => return v.isTruthy
  | some _ => return true
  | .none => return false

/-- The truth of a predicate: a single number is compared with the position. -/
def predicateTruth (scoring : Bool) (location : Option Location) (position : Nat) (c : Cursor) :
    Run Bool := do
  match ← c.decider scoring location with
  | some (.atomic v) =>
    match v.number? with
    | some x => return x.same (Format.double.ofInt position)
    | .none => return v.isTruthy
  | some _ => return true
  | .none => return false

end Cursor

def untypedAsString : Atomic → Atomic
  | .untyped s => .string s
  | v => v

/-- Compares two sequences of atomic values: in the general style for some pair, in the value style
single values, an empty operand giving an empty result. -/
def compareAtomics (style : CompareStyle) (op : CompareOp) (left right : List Atomic) :
    Except Error (List Item) :=
  match style with
  | .general => (compareGeneral op left right).map fun b => [.atomic (.boolean b)]
  | .value =>
    match left, right with
    | [], _ => .ok []
    | _, [] => .ok []
    | [a], [b] => (Atomic.compare op (untypedAsString a) (untypedAsString b)).map fun c =>
      [.atomic (.boolean c)]
    | _, _ => .error (.of (.severalItems op))

/-- The result of a path in document order without duplicates. Sequences without a node stay as they
are. -/
def documentOrder (forest : Forest) (items : List Item) : Except Failure (List Item) :=
  let nodes := items.filterMap Item.node?
  if nodes.isEmpty then .ok items
  else if nodes.length ≠ items.length then .error (.of .mixedPath)
  else (forest.sortNodes nodes).map fun sorted => sorted.map .node

/-- The items, of which there are `size`, that a judgement keeps, numbered from `pos + 1`, with
their scores added up. -/
def keepScored (judge : Nat → Nat → Item → Run (Option Number)) (size pos : Nat) :
    List (Item × Number) → Run (List (Item × Number))
  | [] => return []
  | (item, total) :: rest => do
    let verdict ← judge size (pos + 1) item
    let kept ← keepScored judge size (pos + 1) rest
    match verdict with
    | some score => return (item, total.add .double score) :: kept
    | .none => return kept

/-- The items with their mean scores over `count` predicates, if scores are wanted. -/
def meanScores (scoring : Bool) (count : Nat) (items : List (Item × Number)) :
    List (Item × Option Number) :=
  items.map fun (item, total) =>
    (item, if scoring then some (total.divideBy .double count) else none)

/-! ### Full-text search -/

namespace Env

def requireMatcher (env : Env) : Run Matcher :=
  match env.matcher with
  | some matcher => return matcher
  | .none => Logged.failWith .noMatcher

def texts (env : Env) (items : List Item) : Run (List String) := do
  let values ← Logged.lift (atomizeAll env.forest items)
  return values.map Atomic.lexical

/-- Searches the items of a cursor for words; the best match counts. -/
def searchText (env : Env) (matcher : Matcher) (words : List String) (input : Cursor) :
    Run TextMatch :=
  input.fold env.scoring (fun best item _ => do
    let v ← Logged.lift (item.atomize env.forest)
    let m ← Logged.lift (matcher v.lexical words)
    return best.best m) .miss

def search (env : Env) (query : Run (List Item)) (input : Run Cursor) : Run TextMatch := do
  let matcher ← env.requireMatcher
  let words ← env.texts (← query)
  env.searchText matcher words (← input)

end Env

/-! ### Paths and filters -/

def admitNode (location : Option Location) (item : Item) : Except Failure Unit :=
  if item.isNode then .ok () else .error ((Failure.of (.pathOnOther item.render)).locate location)

/-- The environment with one of several items in focus, whose number is known or not. -/
def Env.focusOn (env : Env) (size : Option Nat) (scoring : Bool) (position : Nat) (item : Item) :
    Env :=
  { env with focus := ⟨some item, position, size⟩, scoring }

namespace Cursor

/-- The values of an operand for the items of a cursor. An operand that asks for its position gets
to know the number of items, for which they all have to be there. -/
def follow (env : Env) (operand : Expr) (nodesOnly : Bool) (iterate : Env → Run Cursor)
    (c : Cursor) : Run Cursor :=
  let accept : Item → Except Failure Unit :=
    if nodesOnly then admitNode operand.location else fun _ => .ok ()
  let link (size : Option Nat) : Link :=
    ⟨accept, fun scoring position item => iterate (env.focusOn size scoring position item)⟩
  if operand.dependsOn .position then do
    let items ← c.drain env.scoring
    return (ofList items).chain (link (some items.length)) 0
  else return c.chain (link .none) 0

/-- The items of a cursor that pass all predicates. Without positional predicates, or with one
window in front of others that are not positional, items are judged as they come, `mean` being the
mean score in a focus; else `inTurn` applies predicate after predicate to all that are left. -/
def filterBy (env : Env) (predicates : List Expr) (mean : Env → Run (Option Number))
    (inTurn : List (Item × Number) → Run (List (Item × Number))) (c : Cursor) : Run Cursor :=
  let judge : Judgement := fun scoring position item =>
    mean (env.focusOn .none scoring position item)
  if predicates.isEmpty then return c
  else if !predicates.any Expr.isPositional then return c.select judge 0
  else
    match leadingWindow? predicates with
    | some w => return c.window w judge 0
    | .none => do
      let items ← c.drain env.scoring
      let kept ← inTurn (items.map fun item => (item, .zero))
      return ofScored (meanScores env.scoring predicates.length kept)

end Cursor
end TreeQuery
