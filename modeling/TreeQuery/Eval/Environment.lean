import TreeQuery.FullText
import TreeQuery.Item.Conformance
import TreeQuery.Cursor.Basic
/-!
# Environments

What an expression is evaluated in: the forest, the values of variables, the full-text matcher, the
focus and whether scores are wanted. `Context` is what the caller of a query supplies.
-/

namespace TreeQuery

/-- The context item, its position, and the number of items it is one of, if that is known. -/
structure Focus where
  item : Option Item
  position : Nat
  size : Option Nat

namespace Focus

def none : Focus := ⟨.none, 0, .none⟩

def ofItem? : Option Item → Focus
  | some item => ⟨some item, 1, some 1⟩
  | .none => none

instance : Inhabited Focus := ⟨none⟩

end Focus

/-- Values of variables; of two values of one variable the first counts. -/
abbrev Bindings := List (ExpandedName × List Item)

/-- What a query is evaluated against. Calls that are nested deeper than `callDepth` are given
up. -/
structure Context where
  forest : Forest
  item : Option Item := .none
  globals : Bindings := []
  matcher : Option Matcher := .none
  scoring : Bool := false
  callDepth : Nat := 1000000

/-- What an expression is evaluated in. -/
structure Env where
  forest : Forest
  /-- The values of the variables that are supplied from outside. -/
  globals : Bindings
  matcher : Option Matcher
  focus : Focus
  /-- The parameters of the innermost call. -/
  locals : Bindings
  scoring : Bool

namespace Env

def ofContext (c : Context) : Env :=
  ⟨c.forest, c.globals, c.matcher, .ofItem? c.item, [], c.scoring⟩

def withFocus (env : Env) (focus : Focus) : Env := { env with focus }

def withScoring (env : Env) (scoring : Bool) : Env := { env with scoring }

/-- The environment of a function's body: its parameters, and no focus. -/
def enter (env : Env) (locals : Bindings) : Env := { env with locals, focus := .none }

def contextItem (env : Env) : Run Item :=
  match env.focus.item with
  | some item => return item
  | .none => Logged.failWith .contextAbsent

def contextPosition (env : Env) : Run Nat :=
  match env.focus.item with
  | some _ => return env.focus.position
  | .none => Logged.failWith .contextAbsent

def contextSize (env : Env) : Run Nat :=
  match env.focus.item, env.focus.size with
  | some _, some size => return size
  | some _, .none => Logged.failWith .sizeUnknown
  | .none, _ => Logged.failWith .contextAbsent

/-- The value of a variable: that of a parameter, else the one supplied, as a value of the declared
type. -/
def lookup (env : Env) (v : Variable) (location : Option Location) : Run (List Item) :=
  match env.locals.lookup v.name with
  | some value => return value
  | .none =>
    match env.globals.lookup v.name with
    | .none => Logged.failWith (.unbound v.name)
    | some value =>
      match v.declared with
      | some declared => checkSequence env.forest declared v.promote location value
      | .none => return value

/-- The parameters of a function bound to arguments, each as a value of its declared type. -/
def bindParams (env : Env) (location : Option Location) :
    List Variable → List (List Item) → Run Bindings
  | v :: vs, arg :: args => do
    let value ← match v.declared with
      | some declared => checkSequence env.forest declared v.promote location arg
      | .none => pure arg
    let rest ← env.bindParams location vs args
    return rest ++ [(v.name, value)]
  | _, _ => return []

end Env

/-- How function items are called. -/
abbrev Caller := Env → FunctionItem → List (List Item) → Option Location → Run (List Item)

end TreeQuery
