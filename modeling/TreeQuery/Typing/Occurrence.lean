/-!
# Occurrence indicators

How many items a sequence may have, told apart as none, one and more than one. The indicators are
the pairs of a lower bound 0 or 1 and an upper bound 0, 1 or none, the contradictory pair left out.
`union` widens both bounds, `intersect` narrows both and fails where no length is left.
-/

namespace TreeQuery

inductive Occurrence where
  | zero
  | zeroOrOne
  | one
  | zeroOrMore
  | oneOrMore
deriving DecidableEq, Repr, Inhabited

namespace Occurrence

def min : Occurrence → Nat
  | .zero | .zeroOrOne | .zeroOrMore => 0
  | .one | .oneOrMore => 1

def max : Occurrence → Option Nat
  | .zero => some 0
  | .zeroOrOne | .one => some 1
  | .zeroOrMore | .oneOrMore => none

/-- The tightest indicator for the lengths from `low` to `high`; `none` if there is no such
length. -/
def ofBounds? (low : Nat) (high : Option Nat) : Option Occurrence :=
  match high with
  | some 0 => if low = 0 then some .zero else none
  | some 1 => if low = 0 then some .zeroOrOne else if low = 1 then some .one else none
  | some high => if high < low then none else some (if low = 0 then .zeroOrMore else .oneOrMore)
  | none => some (if low = 0 then .zeroOrMore else .oneOrMore)

def ofSize : Nat → Occurrence
  | 0 => .zero
  | 1 => .one
  | _ => .oneOrMore

def admits (o : Occurrence) (n : Nat) : Bool :=
  decide (o.min ≤ n) && (match o.max with
    | some high => decide (n ≤ high)
    | none => true)

def instanceOf (a b : Occurrence) : Bool :=
  decide (b.min ≤ a.min) && (match a.max, b.max with
    | _, none => true
    | none, some _ => false
    | some x, some y => decide (x ≤ y))

/-- The tightest indicator that admits what either one admits. -/
def union (a b : Occurrence) : Occurrence :=
  let high := match a.max, b.max with
    | some x, some y => some (Max.max x y)
    | _, _ => none
  (ofBounds? (Min.min a.min b.min) high).getD .zeroOrMore

/-- The indicator of the lengths that both admit, `none` if there is none. -/
def intersect (a b : Occurrence) : Option Occurrence :=
  let high := match a.max, b.max with
    | some x, some y => some (Min.min x y)
    | some x, none => some x
    | none, y => y
  ofBounds? (Max.max a.min b.min) high

/-- The indicator of a concatenation of sequences of the second kind, one per item of the first. -/
def multiply (a b : Occurrence) : Occurrence :=
  let high := match a.max, b.max with
    | some 0, _ => some 0
    | _, some 0 => some 0
    | some x, some y => some (x * y)
    | _, _ => none
  (ofBounds? (a.min * b.min) high).getD .zeroOrMore

def atMostOne (o : Occurrence) : Bool :=
  match o.max with
  | some high => decide (high ≤ 1)
  | none => false

def suffix : Occurrence → String
  | .zero | .one => ""
  | .zeroOrOne => "?"
  | .zeroOrMore => "*"
  | .oneOrMore => "+"

@[simp] theorem admits_ofSize (n : Nat) : (ofSize n).admits n = true := by
  match n with
  | 0 | 1 | _ + 2 => simp [ofSize, admits, min, max]

theorem admits_of_instanceOf {a b : Occurrence} {n : Nat} (h : a.instanceOf b = true)
    (ha : a.admits n = true) : b.admits n = true := by
  rcases n with _ | _ | n <;> cases a <;> cases b <;> simp_all [instanceOf, admits, min, max]

end Occurrence
end TreeQuery
