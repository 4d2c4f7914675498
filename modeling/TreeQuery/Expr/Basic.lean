import TreeQuery.Atomic.Basic
import TreeQuery.Error
import TreeQuery.Tree.NodeTest
import TreeQuery.Window
/-!
# Expressions

The expression tree. A node has a form, the static type that is known for its value and, perhaps,
the place in the query where it stands. `Expr.of` gives a form the type that it has before anything
is known of its context. Function items are values that hold expressions: inline functions, and
functions that were given another signature.
-/

namespace TreeQuery

/-- A variable: its name, the type it was declared with, and whether values are promoted to that
type. -/
structure Variable where
  name : ExpandedName
  declared : Option SeqType := none
  promote : Bool := false
deriving DecidableEq, Inhabited

namespace Variable

def type (v : Variable) : SeqType := v.declared.getD .anything

/-- Whether values that are bound to the variable are checked and promoted. -/
def promotes (v : Variable) : Bool := v.declared.isSome && v.promote

end Variable

mutual

structure Expr where
  form : Form
  type : StaticType
  location : Option Location

inductive Form where
  | literal (values : List Atomic)
  | function (item : FunctionItem)
  | contextItem
  /-- Whether the context position lies in a window. -/
  | position (window : Window)
  | conjunction (operands : List Expr)
  | disjunction (operands : List Expr)
  | comparison (style : CompareStyle) (op : CompareOp) (left right : Expr)
  | call (function : Builtin) (args : List Expr)
  | step (axis : Axis) (test : NodeTest) (predicates : List Expr)
  /-- Steps from the nodes of a root. -/
  | path (root : Expr) (steps : List Expr)
  /-- Steps from the context item. -/
  | relativePath (steps : List Expr)
  | map (operands : List Expr)
  | filter (root : Expr) (predicates : List Expr)
  /-- Full-text search for the words of a query. -/
  | containsText (input query : Expr)
  | conditional (condition yes no : Expr)
  | reference (v : Variable)
  /-- The call of a function item. -/
  | apply (function : Expr) (args : List Expr)
  /-- The operand's value, which has to be of a type, after promotion if that is allowed. -/
  | check (operand : Expr) (target : SeqType) (promote : Bool)
  /-- The deferred failure: evaluating it raises the error. -/
  | failure (error : Error)

inductive FunctionItem where
  | inline (name : Option ExpandedName) (signature : Signature)
    (params : List Variable) (body : Expr)
  /-- A function with another signature: arguments and result are checked against that one. -/
  | coerced (name : Option ExpandedName) (signature : Signature) (inner : FunctionItem)

end

instance : Inhabited Form := ⟨.contextItem⟩
instance : Inhabited Expr := ⟨⟨default, default, none⟩⟩

namespace FunctionItem

def name : FunctionItem → Option ExpandedName
  | .inline name .. => name
  | .coerced name .. => name

def signature : FunctionItem → Signature
  | .inline _ signature .. => signature
  | .coerced _ signature _ => signature

def arity (f : FunctionItem) : Nat := f.signature.arity

def ofParams (params : List Variable) (result : Option SeqType) (body : Expr) : FunctionItem :=
  .inline none ⟨params.map Variable.type, result.getD .anything⟩ params body

def withName (name : ExpandedName) : FunctionItem → FunctionItem
  | .inline _ signature params body => .inline (some name) signature params body
  | .coerced _ signature inner => .coerced (some name) signature inner

def render (f : FunctionItem) : String :=
  (match f.name with
    | some name => name.render
    | none => "function") ++ "#" ++ f.arity.repr

end FunctionItem

/-- The least type of all the values, and their number. -/
def literalType (values : List Atomic) : StaticType :=
  let item := values.foldl (fun (seen : Option ItemType) v =>
    let t : ItemType := .atomic v.type
    some (match seen with
      | some s => s.union t
      | none => t)) none
  .sized (item.getD .any) values.length

namespace Builtin

def resultType (b : Builtin) (args : List Expr) : StaticType :=
  match b with
  | .boolean | .not | .exists | .empty => .boolean
  | .count | .position | .last => .of (.atomic .integer) .one
  | .trace =>
    match args with
    | arg :: _ => arg.type
    | [] => .anything

/-- The function with a name, if it can be called with so many arguments. -/
def resolve (name : String) (arity : Nat) : Except Error Builtin :=
  match all.find? (·.name == name) with
  | none => .error (.of (.unknownFunction name arity))
  | some b => if b.arity.1 ≤ arity ∧ arity ≤ b.arity.2 then .ok b else
    .error (.of (.wrongArity name arity))

end Builtin

def Form.type : Form → StaticType
  | .literal values => literalType values
  | .function item => .of (.functionOf item.signature) .one
  | .position _ | .conjunction _ | .disjunction _ | .containsText .. | .comparison .general .. =>
    .boolean
  | .call f args => f.resultType args
  | .reference v => .ofSeqType v.type
  | .check _ target _ => .ofSeqType target
  | _ => .anything

namespace Expr

def of (form : Form) : Expr := ⟨form, form.type, none⟩

def at? (e : Expr) (l : Option Location) : Expr := { e with location := l }

def typed (e : Expr) (t : StaticType) : Expr := { e with type := t }

def literal (values : List Atomic) : Expr := of (.literal values)

def empty : Expr := literal []

def ofBool (b : Bool) : Expr := literal [.boolean b]

def ofInt (i : Int) : Expr := literal [.integer i]

def contextItem : Expr := of .contextItem

def call (f : Builtin) (args : List Expr) : Expr := of (.call f args)

def checked (e : Expr) (target : SeqType) (promote : Bool) : Expr :=
  (of (.check e target promote)).at? e.location

def isConstant (e : Expr) : Bool :=
  match e.form with
  | .literal _ | .function _ => true
  | _ => false

def literalValues? (e : Expr) : Option (List Atomic) :=
  match e.form with
  | .literal values => some values
  | _ => none

def isBool (e : Expr) (b : Bool) : Bool :=
  match e.form with
  | .literal [.boolean c] => c == b
  | _ => false

def number? (e : Expr) : Option Number :=
  match e.form with
  | .literal [v] => v.number?
  | _ => none

def isCallOf (e : Expr) (b : Builtin) : Bool :=
  match e.form with
  | .call c _ => c == b
  | _ => false

def isContextItem (e : Expr) : Bool :=
  match e.form with
  | .contextItem => true
  | _ => false

def isStep (e : Expr) : Bool :=
  match e.form with
  | .step .. => true
  | _ => false

def window? (e : Expr) : Option Window :=
  match e.form with
  | .position w => some w
  | _ => none

def ofPositionTest : PositionTest → Expr
  | .within w => of (.position w)
  | .never => ofBool false

end Expr
end TreeQuery
