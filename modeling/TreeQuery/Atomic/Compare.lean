import TreeQuery.Atomic.Cast
/-!
# Comparisons

Numbers are compared as doubles, truth values only for equality, texts by their characters. A
general comparison holds if it holds for some pair; there an untyped operand takes the type of the
other side.
-/

namespace TreeQuery

namespace Atomic

/-- Whether two values satisfy an operator. Next to what is not a number only `ne` holds. -/
def compare (op : CompareOp) (a b : Atomic) : Except Error Bool :=
  match a.number?, b.number? with
  | some x, some y =>
    .ok (match x.compare? y with
      | some order => op.holds order
      | none => op == .ne)
  | _, _ =>
    match a, b with
    | .boolean x, .boolean y =>
      match op with
      | .eq => .ok (x == y)
      | .ne => .ok (x != y)
      | op => .error (.of (.booleanOrder op))
    | a, b =>
      match a.text?, b.text? with
      | some x, some y => .ok (op.holds (Ord.compare x y))
      | _, _ => .error (.of (.incomparable a.type b.type))

/-- The type that an untyped operand takes beside `other`: texts stay texts, numbers are compared as
doubles. -/
def typeBeside (other : Atomic) : AtomicType :=
  match other with
  | .untyped _ | .string _ | .anyURI _ => .string
  | other => if other.isNumeric then .double else other.type

def alignPair (a b : Atomic) : Except Error (Atomic × Atomic) :=
  match a, b with
  | .untyped _, .untyped _ => .ok (a, b)
  | .untyped s, _ => (castText s (typeBeside b)).map fun v => (v, b)
  | _, .untyped s => (castText s (typeBeside a)).map fun v => (a, v)
  | _, _ => .ok (a, b)

def comparePair (op : CompareOp) (a b : Atomic) : Except Error Bool := do
  let (a, b) ← alignPair a b
  compare op a b

end Atomic

/-- Whether one of the tests, in order, succeeds; a test that fails before ends the search. -/
def anyTest {α : Type} (test : α → Except Error Bool) : List α → Except Error Bool
  | [] => .ok false
  | a :: as => do
    if ← test a then .ok true else anyTest test as

/-- General comparison: pairs are tried in order, the left operand slowest. -/
def compareGeneral (op : CompareOp) (left right : List Atomic) : Except Error Bool :=
  anyTest (fun a => anyTest (Atomic.comparePair op a) right) left

end TreeQuery
