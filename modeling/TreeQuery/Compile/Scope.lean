import TreeQuery.Logged
import TreeQuery.Expr.Equality
import TreeQuery.Expr.Printer
/-!
# Scopes

What is known where an expression is compiled: the type of the item in focus, the variables in scope
and whether optimization is wanted. A compilation remarks on what it changes; `replace` and `defer`
are the two ways in which one expression takes the place of another.
-/

namespace TreeQuery

/-- A compilation, which remarks on what it does. -/
abbrev Compile := Logged String

/-- What is known where an expression is compiled. -/
structure Scope where
  optimize : Bool
  /-- The type of the item in focus, `none` where there is no focus. -/
  focus : Option ItemType
  /-- The variables in scope; of two with one name the first counts. -/
  visible : List Variable

namespace Scope

def withFocus (s : Scope) (focus : Option ItemType) : Scope := { s with focus }

/-- The scope with more variables, of which the last of one name counts. -/
def withVariables (s : Scope) (vars : List Variable) : Scope :=
  { s with visible := vars.reverse ++ s.visible }

def lookup (s : Scope) (name : ExpandedName) : Option Variable := s.visible.find? (·.name == name)

end Scope

def remark (note : String) : Compile Unit := Logged.write note

def failStatically {α : Type} (found : String) (expected : SeqType) (location : Option Location) :
    Compile α :=
  Logged.fail (.error (.staticMismatch found expected location))

def replace (old new : Expr) : Compile Expr := do
  if !old.same new then remark ("rewrite " ++ old.render ++ " to " ++ new.render)
  return new.at? (new.location <|> old.location)

/-- Puts a failure in the place of an expression, to be raised if it is evaluated. -/
def defer (e : Error) (old : Expr) : Compile Expr := do
  let e := e.locate old.location
  remark ("defer " ++ e.renderCode ++ " in " ++ old.render)
  return ⟨.failure e, old.type, old.location⟩

/-- Defers the error of a compilation; reaching the limit is no error. -/
def deferring (old : Expr) (x : Compile Expr) : Compile Expr :=
  match x with
  | ⟨log, .error (.error e)⟩ => (defer e old).prepend log
  | x => x

def Expr.constantTruth (e : Expr) : Except Error Bool :=
  match e.form with
  | .literal [] => .ok false
  | .literal [v] => .ok v.isTruthy
  | .literal _ => .error ((Error.of (.truthUndefined e.render)).locate e.location)
  | .function f =>
    .error ((Error.of (.truthUndefined ("function item " ++ f.render))).locate e.location)
  | _ => .error ((Error.of (.notConstant e.render)).locate e.location)

/-- In what way the result of an expression is looked at. -/
inductive TruthMode where
  /-- Only its effective boolean value counts. -/
  | truth
  /-- It is a predicate, and a number in it is a position. -/
  | predicate
deriving DecidableEq, Repr

/-- The parts of compilation that the rules come back to. -/
structure Optimizer where
  compile : Scope → Expr → Compile Expr
  simplify : TruthMode → Scope → Expr → Compile Expr

end TreeQuery
