/-!
# Operators and built-in functions

The closed vocabularies of the expression language: comparison operators in their two spellings, and
the functions that are known by name.
-/

namespace TreeQuery

/-- What a comparison asks of the order of its operands. -/
inductive CompareOp where
  | eq
  | ne
  | lt
  | le
  | gt
  | ge
deriving DecidableEq, Repr, Inhabited

/-- General comparisons range over all pairs of two sequences, value comparisons take single
items. -/
inductive CompareStyle where
  | general
  | value
deriving DecidableEq, Repr, Inhabited

namespace CompareOp

def swap : CompareOp → CompareOp
  | .lt => .gt
  | .le => .ge
  | .gt => .lt
  | .ge => .le
  | op => op

@[simp] theorem swap_swap (op : CompareOp) : op.swap.swap = op := by cases op <;> rfl

def holds (op : CompareOp) (order : Ordering) : Bool :=
  match op with
  | .eq => order == .eq
  | .ne => order != .eq
  | .lt => order == .lt
  | .le => order != .gt
  | .gt => order == .gt
  | .ge => order != .lt

theorem holds_swap (op : CompareOp) (order : Ordering) :
    op.swap.holds order.swap = op.holds order := by
  cases op <;> cases order <;> rfl

def symbol (op : CompareOp) : CompareStyle → String
  | .general =>
    match op with
    | .eq => "="
    | .ne => "!="
    | .lt => "<"
    | .le => "<="
    | .gt => ">"
    | .ge => ">="
  | .value =>
    match op with
    | .eq => "eq"
    | .ne => "ne"
    | .lt => "lt"
    | .le => "le"
    | .gt => "gt"
    | .ge => "ge"

end CompareOp

inductive Builtin where
  | boolean
  | not
  | exists
  | empty
  | count
  | position
  | last
  | trace
deriving DecidableEq, Repr, Inhabited

namespace Builtin

def name : Builtin → String
  | .boolean => "boolean"
  | .not => "not"
  | .exists => "exists"
  | .empty => "empty"
  | .count => "count"
  | .position => "position"
  | .last => "last"
  | .trace => "trace"

def all : List Builtin := [.boolean, .not, .exists, .empty, .count, .position, .last, .trace]

def arity : Builtin → Nat × Nat
  | .position | .last => (0, 0)
  | .trace => (1, 2)
  | _ => (1, 1)

end Builtin
end TreeQuery
