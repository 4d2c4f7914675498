import TreeQuery.Sorting.Comparing
/-!
# Sorting short lists

Insertion sort, merging, and the sort of lists of up to 32 elements, which sorts both halves and
merges them from both ends at once. Of equal elements the one that stands first stays first. The
merge from both ends relies on the answers: if they contradict each other, the two ends need not
meet, and then it gives up.
-/

namespace TreeQuery
namespace Comparing

variable {α : Type}

/-! ### Insertion -/

/-- Puts `a` into a list that is sorted from its last element on: behind all that it comes
before. -/
def sink (a : α) : List α → Comparing α (List α)
  | [] => return [a]
  | b :: bs => do
    if ← less a b then return b :: (← sink a bs) else return a :: b :: bs

def sinkAll (sorted : List α) : List α → Comparing α (List α)
  | [] => return sorted
  | a :: as => do sinkAll (← sink a sorted) as

def insertionSort (as : List α) : Comparing α (List α) := do
  return (← sinkAll [] as).reverse

/-! ### Merging -/

/-- A merge of two runs under way: what is left of each, and what has been put out, the last
element first. -/
structure Merge (α : Type) where
  left : List α
  right : List α
  out : List α

namespace Merge

def takeLeft : Merge α → Merge α
  | ⟨a :: as, bs, out⟩ => ⟨as, bs, a :: out⟩
  | m => m

def takeRight : Merge α → Merge α
  | ⟨as, b :: bs, out⟩ => ⟨as, bs, b :: out⟩
  | m => m

/-- Puts out the lesser of the two elements in front, if both runs have one left. -/
def up (m : Merge α) : Comparing α (Merge α) :=
  match m.left, m.right with
  | a :: _, b :: _ => do
    if ← less b a then return m.takeRight else return m.takeLeft
  | _, _ => return m

/-- The same from the other end, for runs that are turned around: puts out the greater element. -/
def down (m : Merge α) : Comparing α (Merge α) :=
  match m.left, m.right with
  | a :: _, b :: _ => do
    if ← less b a then return m.takeLeft else return m.takeRight
  | _, _ => return m

def ups : Nat → Merge α → Comparing α (Merge α)
  | 0, m => return m
  | n + 1, m => do ups n (← m.up)

def downs : Nat → Merge α → Comparing α (Merge α)
  | 0, m => return m
  | n + 1, m => do downs n (← m.down)

def both : Nat → Merge α → Merge α → Comparing α (Merge α × Merge α)
  | 0, front, back => return (front, back)
  | n + 1, front, back => do
    let front ← front.up
    let back ← back.down
    both n front back

end Merge

/-- Merges two runs, beginning at the end where the shorter one is. -/
def mergeRuns (left right : List α) : Comparing α (List α) := do
  let n := left.length + right.length
  if left.length ≤ right.length then
    let m ← Merge.ups n ⟨left, right, []⟩
    return m.out.reverse ++ (m.left ++ m.right)
  else
    let m ← Merge.downs n ⟨left.reverse, right.reverse, []⟩
    return m.left.reverse ++ m.right.reverse ++ m.out

/-- One step more from the front if the runs have an odd number of elements together, which the
steps from both ends have left one of. -/
def Merge.finish (front : Merge α) (left right : List α) (back : Merge α) : Merge α :=
  if left.length = right.length then front
  else if left.length < front.left.length + back.left.length then front.takeLeft
  else front.takeRight

/-- Puts together what two merges have put out from both ends of the runs `left` and `right`. Gives
up unless the ends have met. -/
def joinEnds (left right : List α) (front back : Merge α) : Comparing α (List α) :=
  if front.left.length + back.left.length = left.length ∧
      front.right.length + back.right.length = right.length then
    return front.out.reverse ++ back.out
  else giveUp

/-- Merges two runs from both ends; `right` may be longer by one. -/
def mergeEnds (left right : List α) : Comparing α (List α) := do
  let (front, back) ←
    Merge.both left.length ⟨left, right, []⟩ ⟨left.reverse, right.reverse, []⟩
  joinEnds left right (front.finish left right back) back

/-! ### Halves -/

def inOrder (a b : α) : Comparing α (α × α) := do
  if ← less b a then return (b, a) else return (a, b)

/-- Merges two pairs. Once the least and the greatest element are known, `x` is the one of the other
two that stood first. -/
def mergePairs (a b c d : α) : Comparing α (List α) := do
  let ca ← less c a
  let db ← less d b
  let least := if ca then c else a
  let greatest := if db then b else d
  let x := if ca then a else if db then c else b
  let y := if db then d else if ca then b else c
  let (x, y) ← inOrder x y
  return [least, x, y, greatest]

def sort4 (a b c d : α) : Comparing α (List α) := do
  let (a, b) ← inOrder a b
  let (c, d) ← inOrder c d
  mergePairs a b c d

/-- Sorts the first elements of half of a list of `n` elements: eight, four or none of them. Gives
those, the last one first, and the elements behind them. -/
def presort (n : Nat) (as : List α) : Comparing α (List α × List α) :=
  match as with
  | a :: b :: c :: d :: rest => do
    if n < 8 then return ([], as)
    let low ← sort4 a b c d
    match rest with
    | e :: f :: g :: h :: rest' =>
      if n < 16 then return (low.reverse, rest)
      let high ← sort4 e f g h
      return ((← mergeEnds low high).reverse, rest')
    | _ => return (low.reverse, rest)
  | _ => return ([], as)

/-- The length up to which lists are sorted by halves. -/
def shortLength : Nat := 32

def sortShort (as : List α) : Comparing α (List α) := do
  if as.length < 2 then return as
  let half := as.length / 2
  let (low, lows) ← presort as.length (as.take half)
  let (high, highs) ← presort as.length (as.drop half)
  let left ← sinkAll low lows
  let right ← sinkAll high highs
  mergeEnds left.reverse right.reverse

end Comparing
end TreeQuery
