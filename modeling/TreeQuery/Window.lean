import TreeQuery.Number.Basic
import TreeQuery.Operator
/-!
# Windows of positions

A positional test that holds for an unbroken run of positions is a window `[first, last]`. Positions
are words of 64 bits and begin at 1; the greatest word as the last position means that the window
has no end, and sums stop there.
-/

namespace TreeQuery

/-- The greatest word. As the last position of a window it says that there is none. -/
def noEnd : Nat := Nat.pow 2 64 - 1

/-- A run of positions that is not empty. -/
structure Window where
  first : Nat
  last : Nat
  one_le_first : 1 ≤ first
  first_le_last : first ≤ last
  last_le_noEnd : last ≤ noEnd
deriving DecidableEq

/-- What a positional test is found to be: a window, or a test that no position passes. -/
inductive PositionTest where
  | within (w : Window)
  | never
deriving DecidableEq

namespace Window

instance : Inhabited Window := ⟨⟨1, noEnd, by decide, by decide, by decide⟩⟩

def addUpTo (a b : Nat) : Nat := Min.min (a + b) noEnd

/-- The window from `first` (from 1 if that is 0) to `last`, if it has a position. -/
def between? (first last : Nat) : Option Window :=
  if h : Max.max first 1 ≤ last ∧ last ≤ noEnd then
    some ⟨Max.max first 1, last, by omega, h.1, h.2⟩ else none

def between (first last : Nat) : PositionTest :=
  match between? first last with
  | some w => .within w
  | none => .never

def single (n : Nat) : PositionTest := between n n

/-- Positions above any that can be asked for count as the greatest one with an end. -/
def capPosition (n : Nat) : Nat := if noEnd < n then noEnd - 1 else n

def atNumber (x : Number) : PositionTest :=
  if x.isIntegral && !x.isNegative then
    match x.wholePart? with
    | some n => if n = 0 then .never else single (capPosition n)
    | none => .never
  else .never

/-- A number rounded down to a position, 0 if there is none so low. -/
def floorPosition (x : Number) : Nat :=
  if x.isNegative then 0
  else
    match x.wholePart? with
    | some n => capPosition n
    | none => noEnd - 1

def ceilPosition (x : Number) : Nat :=
  if x.isNegative then 0
  else
    match x.wholePart? with
    | some n => capPosition (if x.isIntegral then n else n + 1)
    | none => noEnd - 1

/-- The test that compares the position with a number; `none` for the operator whose positions are
no run. -/
def compare? (op : CompareOp) (x : Number) : Option PositionTest :=
  if x.isNaN then some .never
  else
    match op with
    | .eq => some (atNumber x)
    | .ne => none
    | .lt => some (if ceilPosition x = 0 then .never else between 1 (ceilPosition x - 1))
    | .le => some (between 1 (floorPosition x))
    | .gt => some (between (addUpTo (floorPosition x) 1) noEnd)
    | .ge => some (between (ceilPosition x) noEnd)

def contains (w : Window) (pos : Nat) : Bool := decide (w.first ≤ pos ∧ pos ≤ w.last)

def isUnbounded (w : Window) : Bool := w.last == noEnd

/-- The number of positions, the greatest word for a window without an end. -/
def width (w : Window) : Nat := if w.isUnbounded then noEnd else w.last - w.first + 1

/-- The one window that selects what the second selects from the positions in the first. -/
def fuse (w next : Window) : PositionTest :=
  let shifted := if next.isUnbounded then noEnd else addUpTo w.first (next.last - 1)
  between (addUpTo w.first (next.first - 1)) (Min.min w.last shifted)

def render (w : Window) : String :=
  if w.first = w.last then "position() = " ++ w.first.repr
  else if w.isUnbounded then "position() >= " ++ w.first.repr
  else "position() = " ++ w.first.repr ++ " to " ++ w.last.repr

end Window
end TreeQuery
