import TreeQuery.Sorting.Short
/-!
# The stable sort

Up to 20 elements are sorted by insertion. Of more, runs are looked for that are sorted already;
what is between long runs is left in stretches that are merged where both neighbours are unsorted,
and sorted by division around a pivot otherwise. Which neighbours are merged first is decided by
their places. Up to 64 elements, and where division has failed too often, stretches without a run
are sorted at once, as short lists.
-/

namespace TreeQuery
namespace Comparing

variable {α : Type}

/-! ### Division around a pivot -/

def median (v : Array α) (i j k : Fin v.size) : Comparing α (Fin v.size) := do
  let x ← less v[i] v[j]
  let y ← less v[i] v[k]
  if x == y then
    let z ← less v[j] v[k]
    return if z ^^ x then k else j
  else return i

/-- The middle one of three of `8 * n` elements from `start` on, each of which is chosen from `n` in
the same way if these are enough. -/
def pseudoMedian (v : Array α) (n start : Nat) (hn : 0 < n) (hv : start + 8 * n ≤ v.size) :
    Comparing α (Fin v.size) :=
  if hlong : 8 ≤ n then do
    let i ← pseudoMedian v (n / 8) start (by omega) (by omega)
    let j ← pseudoMedian v (n / 8) (start + 4 * n) (by omega) (by omega)
    let k ← pseudoMedian v (n / 8) (start + 7 * n) (by omega) (by omega)
    median v i j k
  else
    median v ⟨start, by omega⟩ ⟨start + 4 * n, by omega⟩ ⟨start + 7 * n, by omega⟩
termination_by n

/-- Divides elements into those that pass a test and the others, in front of those divided before;
the last one comes first. -/
def divide (test : α → Comparing α Bool) :
    List α → List α → List α → Comparing α (List α × List α)
  | [], passed, others => return (passed, others)
  | a :: as, passed, others => do
    if ← test a then divide test as (a :: passed) others else divide test as passed (a :: others)

def divideAround (test : α → Comparing α Bool) (before : List α) (pivot : α) (pivotPasses : Bool)
    (after : List α) : Comparing α (List α × List α) := do
  let (passed, others) ← divide test before [] []
  let (passed, others) ←
    if pivotPasses then divide test after (pivot :: passed) others
    else divide test after passed (pivot :: others)
  return (passed.reverse, others.reverse)

/-- Whether an element that does not come before `floor` does not come behind it either. -/
def isFloor (floor : Option α) (a : α) : Comparing α Bool :=
  match floor with
  | some b => notLess b a
  | none => return false

/-- The elements that come before the pivot, and the others. None does if the pivot is at the
floor. -/
def divideBelow (floor : Option α) (before : List α) (pivot : α) (after : List α) :
    Comparing α (List α × List α) := do
  if ← isFloor floor pivot then return ([], before ++ pivot :: after)
  else divideAround (fun a => less a pivot) before pivot false after

/-- Sorts a list in which no element comes before `floor`. After as many divisions as `limit`
allows the list is left to `fallback`. -/
def quicksort (fallback : List α → Comparing α (List α)) :
    (limit : Nat) → (floor : Option α) → List α → Comparing α (List α)
  | 0, _, v => if v.length ≤ shortLength then sortShort v else fallback v
  | limit + 1, floor, v =>
    if hshort : v.length ≤ shortLength then sortShort v
    else do
      have hlong : 8 ≤ v.length := by unfold shortLength at hshort; omega
      let i ← pseudoMedian v.toArray (v.length / 8) 0 (by omega)
        (by rw [List.size_toArray]; omega)
      let before := v.take i
      let pivot := v.toArray[i]
      let after := v.drop (i + 1)
      let (below, rest) ← divideBelow floor before pivot after
      if below.isEmpty then
        let (same, above) ←
          divideAround (fun a => notLess pivot a) before pivot true after
        return same ++ (← quicksort fallback limit none above)
      else
        let above ← quicksort fallback limit (some pivot) rest
        return (← quicksort fallback limit floor below) ++ above

/-! ### Stretches -/

/-- A stretch of the list, which may be left unsorted for a time. -/
structure Stretch (α : Type) where
  elems : List α
  sorted : Bool

def follow (falling : Bool) (a : α) (run : List α) : List α → Comparing α (List α × List α)
  | [] => return (a :: run, [])
  | b :: bs => do
    if (← less b a) == falling then follow falling b (a :: run) bs
    else return (a :: run, b :: bs)

/-- The run that a list begins with, which rises or else falls strictly and is turned around, and
what follows it. -/
def findRun : List α → Comparing α (List α × List α)
  | a :: b :: rest => do
    let falling ← less b a
    let (run, rest) ← follow falling b [a] rest
    return (if falling then run else run.reverse, rest)
  | as => return (as, [])

def makeStretch (good : Nat) (eager : Bool) (v : List α) : Comparing α (Stretch α × List α) := do
  if eager then return (⟨← sortShort (v.take shortLength), true⟩, v.drop shortLength)
  else return (⟨v.take good, false⟩, v.drop good)

def nextStretch (good : Nat) (eager : Bool) (v : List α) : Comparing α (Stretch α × List α) := do
  if good ≤ v.length then
    let (run, rest) ← findRun v
    if good ≤ run.length then return (⟨run, true⟩, rest) else makeStretch good eager v
  else makeStretch good eager v

namespace Stretch

def settle (sort : List α → Comparing α (List α)) (s : Stretch α) : Comparing α (List α) :=
  if s.sorted then return s.elems else sort s.elems

/-- Merges two neighbours. Unsorted ones stay unsorted if both together can still be divided with
room for `space` elements. -/
def merge (sort : List α → Comparing α (List α)) (space : Nat) (left right : Stretch α) :
    Comparing α (Stretch α) := do
  if left.elems.length + right.elems.length ≤ space ∧ !left.sorted ∧ !right.sorted then
    return ⟨left.elems ++ right.elems, false⟩
  else
    let as ← left.settle sort
    let bs ← right.settle sort
    return ⟨← mergeRuns as bs, true⟩

end Stretch

/-- How deep in the tree of merges of `n` elements the elements from `left` to `mid` and those from
`mid` to `right` are to be merged. -/
def mergeDepth (n left mid right : Nat) : Nat :=
  let scale := ((1 <<< 62) + n - 1) / n
  let parting := (scale * (left + mid)) ^^^ (scale * (mid + right))
  if parting = 0 then 64 else 63 - parting.log2

/-- Merges a stretch with those before it that are to be merged at least as deep as `depth`. -/
def collapse (sort : List α → Comparing α (List α)) (space depth : Nat) :
    List (Stretch α × Nat) → Stretch α → Comparing α (List (Stretch α × Nat) × Stretch α)
  | [], last => return ([], last)
  | (left, d) :: stack, last => do
    if depth ≤ d then collapse sort space depth stack (← left.merge sort space last)
    else return ((left, d) :: stack, last)

/-- How a list is sorted by stretches: its length, how long a run has to be to be left as it is,
whether other stretches are sorted at once or by `sort` when they are merged, and the room for
that. -/
structure Plan (α : Type) where
  length : Nat
  good : Nat
  eager : Bool
  sort : List α → Comparing α (List α)
  space : Nat

/-- Adds stretch after stretch to those that are not merged yet, of which `last` ends at `place`. At
most `n` stretches follow. -/
def addStretches (p : Plan α) : (n : Nat) → (place : Nat) → List (Stretch α × Nat) → Stretch α →
    List α → Comparing α (Stretch α)
  | n + 1, place, stack, last, b :: bs => do
    let (next, rest) ← nextStretch p.good p.eager (b :: bs)
    let depth :=
      mergeDepth p.length (place - last.elems.length) place (place + next.elems.length)
    let (stack, last) ← collapse p.sort p.space depth stack last
    addStretches p n (place + next.elems.length) ((last, depth) :: stack) next rest
  | _, _, stack, last, _ => do
    return (← collapse p.sort p.space 0 stack last).2

def roughRoot (n : Nat) : Nat :=
  let shift := (1 + (n ||| 1).log2) / 2
  ((1 <<< shift) + (n >>> shift)) / 2

/-- The length from which a run is left as it is. -/
def goodLength (n : Nat) : Nat :=
  if n ≤ 64 * 64 then min (n - n / 2) 64 else roughRoot n

def sortStretches (eager : Bool) (sort : List α → Comparing α (List α)) (space : Nat)
    (v : List α) : Comparing α (List α) := do
  let p : Plan α := ⟨v.length, goodLength v.length, eager, sort, space⟩
  let (first, rest) ← nextStretch p.good p.eager v
  let whole ← addStretches p rest.length first.elems.length [] first rest
  whole.settle sort

/-- Sorts a list by division, and by stretches that are sorted at once if that fails too often. -/
def sortByDivision (space : Nat) (v : List α) : Comparing α (List α) :=
  quicksort (sortStretches true sortShort space) (2 * (v.length ||| 1).log2) none v

/-- The room that there is for the division of `n` elements: for all of them, but from a million on
for at least half. -/
def divisionSpace (n : Nat) : Nat := max (n - n / 2) (min n 1000000)

/-- Sorts a list; of equal elements the one that stands first stays first. -/
def stableSort (v : List α) : Comparing α (List α) :=
  if v.length ≤ 20 then insertionSort v
  else
    let space := divisionSpace v.length
    sortStretches (v.length ≤ 2 * shortLength) (sortByDivision space) space v

end Comparing
end TreeQuery
