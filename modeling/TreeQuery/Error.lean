import TreeQuery.Name
import TreeQuery.Operator
import TreeQuery.Typing.ItemType
/-!
# Errors

What can go wrong in compiling or evaluating an expression. An error has a cause, from which its
code and its message follow, a phase, and the place in the query that it is reported for. `Failure`
adds the one outcome that is no error of the query: the run is aborted. A limit was reached, on
nested calls or optimizations or on the items that memory has room for, or a sort found its
comparisons to contradict each other.
-/

namespace TreeQuery

/-- The error codes of the standard that are used here. -/
inductive ErrorCode where
  /-- A general error, and nodes without a common order. -/
  | general
  /-- A text that is not a form of the type it is cast to. -/
  | invalidForm
  /-- An argument of the wrong type, as the truth of several items. -/
  | invalidArgument
  /-- Full-text search is not available. -/
  | noFullText
  | typeMismatch
  | undefinedContext
  | undeclaredVariable
  | unknownFunction
  /-- Every other code. -/
  | unknown
deriving DecidableEq, Repr, Inhabited

/-- When an error was found. -/
inductive Phase where
  | static
  | dynamic
deriving DecidableEq, Repr, Inhabited

namespace ErrorCode

def symbol : ErrorCode → String
  | .general => "FOER0000"
  | .invalidForm => "FORG0001"
  | .invalidArgument => "FORG0006"
  | .noFullText => "FOFT9999"
  | .typeMismatch => "XPTY0004"
  | .undefinedContext => "XPDY0002"
  | .undeclaredVariable => "XPST0008"
  | .unknownFunction => "XPST0017"
  | .unknown => "UNKNOWN"

def known : List ErrorCode :=
  [.general, .invalidForm, .invalidArgument, .noFullText, .typeMismatch, .undefinedContext,
    .undeclaredVariable, .unknownFunction]

def ofSymbol (s : String) : ErrorCode := (known.find? (·.symbol == s)).getD .unknown

/-- The code with the given written form, in front of which the customary mark of its namespace may
stand. -/
def ofText (s : String) : ErrorCode :=
  ofSymbol (if s.startsWith "err:" then (s.drop 4).toString else s)

def space : String := "http://www.w3.org/2005/xqt-errors"

def name (c : ErrorCode) : ExpandedName := ⟨some space, c.symbol⟩

/-- The phase in which the code is raised where nothing else is said. -/
def phase : ErrorCode → Phase
  | .undeclaredVariable | .unknownFunction => .static
  | _ => .dynamic

end ErrorCode

inductive Cause where
  /-- A value, described by a text, is not of the type that is asked for. -/
  | mismatch (found : String) (expected : SeqType)
  /-- The context item, position or size is asked for where there is no focus. -/
  | contextAbsent
  /-- The context size is asked for while the items are still being counted. -/
  | sizeUnknown
  | undeclared (name : ExpandedName)
  /-- No value was supplied for a variable. -/
  | unbound (name : ExpandedName)
  | unknownFunction (name : String) (arity : Nat)
  | wrongArity (name : String) (arity : Nat)
  /-- A built-in function lacks the argument with the given number, counted from 1. -/
  | missingArgument (number : Nat) (function : Builtin)
  | invalidForm (text : String) (target : AtomicType)
  /-- The truth of something has no definition. -/
  | truthUndefined (what : String)
  /-- An expression is not a constant. -/
  | notConstant (expr : String)
  | booleanOrder (op : CompareOp)
  | incomparable (left right : AtomicType)
  | severalItems (op : CompareOp)
  /-- A call found this many items in place of one function item. -/
  | notOneFunction (count : Nat)
  | wrongArguments (function : String) (count : Nat)
  /-- A function cannot take on a signature with another number of parameters. -/
  | coercion (function : String) (target : Signature)
  /-- A function item has no atomic value. -/
  | notAtomic (function : String)
  | stepOnOther (item : String)
  | pathOnOther (item : String)
  | mixedPath
  | unorderable
  | noMatcher
  | emptyMap
  /-- An error that is raised by its name. -/
  | raised (code : ExpandedName) (message : String)
deriving DecidableEq, Repr, Inhabited

namespace Cause

def errorCode : Cause → ErrorCode
  | .mismatch .. | .booleanOrder _ | .incomparable .. | .severalItems _ | .notOneFunction
      _ | .wrongArguments ..
  | .coercion .. | .notAtomic _ | .stepOnOther _ | .pathOnOther _ | .mixedPath => .typeMismatch
  | .contextAbsent | .unbound _ => .undefinedContext
  | .sizeUnknown | .notConstant _ | .unorderable | .emptyMap => .general
  | .undeclared _ => .undeclaredVariable
  | .unknownFunction .. | .wrongArity .. | .missingArgument .. => .unknownFunction
  | .invalidForm .. => .invalidForm
  | .truthUndefined _ => .invalidArgument
  | .noMatcher => .noFullText
  | .raised code _ => if code.space = some ErrorCode.space then .ofText code.part else .unknown

def code : Cause → ExpandedName
  | .raised code _ => code
  | c => c.errorCode.name

def message : Cause → String
  | .mismatch found expected => expected.render ++ " expected, " ++ found ++ " found"
  | .contextAbsent => "context item is undefined"
  | .sizeUnknown => "context size is not available"
  | .undeclared v => "undeclared variable $" ++ v.render
  | .unbound v => "no value bound to $" ++ v.render
  | .unknownFunction name arity => "unknown function " ++ name ++ "#" ++ arity.repr
  | .wrongArity name arity => "wrong arity for " ++ name ++ "#" ++ arity.repr
  | .missingArgument number function =>
    "missing argument " ++ number.repr ++ " of " ++ function.name ++ "()"
  | .invalidForm text target => "cannot cast \"" ++ text ++ "\" to " ++ target.name
  | .truthUndefined what => "effective boolean value is undefined for " ++ what
  | .notConstant expr => expr ++ " is not a constant"
  | .booleanOrder op => op.symbol .value ++ " is not defined for booleans"
  | .incomparable left right => "cannot compare " ++ left.name ++ " with " ++ right.name
  | .severalItems op => "value comparison " ++ op.symbol .value ++ " requires single items"
  | .notOneFunction count => "dynamic call requires a single function item, " ++ count.repr ++
    " item(s) found"
  | .wrongArguments function count => function ++ " called with " ++ count.repr ++ " argument(s)"
  | .coercion function target =>
    function ++ " cannot be coerced to " ++ target.render ++ ": arity " ++
      target.arity.repr ++ " expected"
  | .notAtomic function => "function item " ++ function ++ " cannot be atomized"
  | .stepOnOther item => "axis step on non-node context item " ++ item
  | .pathOnOther item => "path step applied to non-node " ++ item
  | .mixedPath => "path result mixes nodes and non-node items"
  | .unorderable => "document order requires adapter: nodes from different roots"
  | .noMatcher => "no full-text matcher is available"
  | .emptyMap => "empty map expression"
  | .raised _ message => message

end Cause

/-- An error of a query. `detail` is the text of another error that led to it. -/
structure Error where
  cause : Cause
  phase : Phase
  location : Option Location := none
  detail : Option String := none
deriving DecidableEq, Repr, Inhabited

namespace Error

def code (e : Error) : ExpandedName := e.cause.code

def message (e : Error) : String := e.cause.message

def errorCode (e : Error) : ErrorCode := e.cause.errorCode

/-- The code's text, with the customary mark for the standard's namespace. -/
def renderCode (e : Error) : String :=
  if e.code.space = some ErrorCode.space then "err:" ++ e.code.part else e.code.render

def render (e : Error) : String :=
  "error: " ++ e.message ++ " (" ++ e.renderCode ++ ")" ++ (match e.location with
    | some l => " at " ++ l.render
    | none => "")

/-- Reports the error for a place, unless it has one. -/
def locate (e : Error) (l : Option Location) : Error := { e with location := e.location <|> l }

def same (a b : Error) : Bool :=
  a.code == b.code && a.phase == b.phase && a.message == b.message && a.location == b.location

def of (cause : Cause) : Error := ⟨cause, cause.errorCode.phase, none, none⟩

def staticMismatch (found : String) (expected : SeqType) (l : Option Location) : Error :=
  ⟨.mismatch found expected, .static, l, none⟩

def dynamicMismatch (found : String) (expected : SeqType) (l : Option Location) : Error :=
  ⟨.mismatch found expected, .dynamic, l, none⟩

end Error

/-- Why there is no answer: an error, or the run was aborted. -/
inductive Failure where
  | error (e : Error)
  | aborted
deriving DecidableEq, Repr, Inhabited

namespace Failure

def of (cause : Cause) : Failure := .error (.of cause)

def locate (f : Failure) (l : Option Location) : Failure :=
  match f with
  | .error e => .error (e.locate l)
  | .aborted => .aborted

end Failure
end TreeQuery
