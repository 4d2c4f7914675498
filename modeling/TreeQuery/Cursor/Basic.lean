import TreeQuery.Item.Basic
/-!
# Cursors

A cursor is a sequence that is still to be computed. What it does is told by its reply to the next
pull: the end, or an item or a failure and the cursor for the rest. A failure does not end a cursor.
A pull is told whether relevance scores are wanted; nothing else that happens between two pulls can
reach a cursor. Before each pull a cursor hints at the number of replies to come.

Cursors are data and well founded, so every cursor comes to its end, and all operations are
recursions on replies.
-/

namespace TreeQuery

/-- Bounds on the number of replies before the end; no upper bound means that none is known. -/
structure SizeHint where
  lower : Nat
  upper : Option Nat
deriving DecidableEq, Repr, Inhabited

namespace SizeHint

def unknown : SizeHint := ⟨0, none⟩

def exactly (n : Nat) : SizeHint := ⟨n, some n⟩

def atMost (h : SizeHint) : SizeHint := ⟨0, h.upper⟩

def capped (h : SizeHint) (limit : Option Nat) : SizeHint :=
  ⟨0, match h.upper, limit with
    | some a, some b => some (min a b)
    | some a, none => some a
    | none, b => b⟩

end SizeHint

mutual

/-- A sequence that is computed when it is pulled. -/
inductive Cursor where
  | mk (hint : SizeHint) (pull : Bool → Reply)

/-- What a pull yields, after what was logged on the way. -/
inductive Reply where
  | ended (log : List Trace) (hint : SizeHint)
  | yielded (log : List Trace) (outcome : Except Failure Item)
    (score : Option Number) (rest : Cursor)

end

namespace Cursor

def hint : Cursor → SizeHint
  | mk hint _ => hint

def pull : Cursor → Bool → Reply
  | mk _ pull => pull

def finished (hint : SizeHint) : Cursor := mk hint fun _ => .ended [] hint

instance : Inhabited Cursor := ⟨finished (.exactly 0)⟩

def ofCounted (count : Nat) : List (Item × Option Number) → Cursor
  | [] => finished (.exactly count)
  | (item, score) :: rest => mk (.exactly count) fun _ =>
    .yielded [] (.ok item) score (ofCounted (count - 1) rest)

def ofScored (items : List (Item × Option Number)) : Cursor := ofCounted items.length items

@[simp] theorem ofScored_nil : ofScored [] = finished (.exactly 0) := rfl

@[simp] theorem ofScored_cons (item : Item) (score : Option Number)
    (rest : List (Item × Option Number)) : ofScored ((item, score) :: rest) =
      mk (.exactly (rest.length + 1)) fun _ => .yielded [] (.ok item) score (ofScored rest) := rfl

def ofPlain (count : Nat) : List Item → Cursor
  | [] => finished (.exactly count)
  | item :: rest => mk (.exactly count) fun _ =>
    .yielded [] (.ok item) none (ofPlain (count - 1) rest)

def ofList (items : List Item) : Cursor := ofPlain items.length items

/-- The cursor over a given run of replies, about which it gives no hint. -/
def ofReplies : List (Except Failure Item × Option Number) → Cursor
  | [] => finished .unknown
  | (outcome, score) :: rest => mk .unknown fun _ => .yielded [] outcome score (ofReplies rest)

def single (item : Item) : Cursor := ofList [item]

def ofBool (b : Bool) : Cursor := single (.atomic (.boolean b))

/-- The cursor over one count, which is cut off at the greatest integer. -/
def ofNat (n : Nat) : Cursor := single (.atomic (.integer (min (n : Int) Atomic.maxInteger)))

end Cursor

namespace Reply

def after (earlier : List Trace) : Reply → Reply
  | .ended log hint => .ended (earlier ++ log) hint
  | .yielded log outcome score rest => .yielded (earlier ++ log) outcome score rest

def log : Reply → List Trace
  | .ended log _ => log
  | .yielded log .. => log

def rest : Reply → Cursor
  | .ended _ hint => .finished hint
  | .yielded _ _ _ rest => rest

end Reply

/-! ### Consuming a cursor -/

variable {β : Type}

/-- Folds the items of a reply and of all later ones; the first failure ends the fold. What was
logged earlier is given in reverse. -/
def Reply.fold (scoring : Bool) (step : β → Item → Option Number → Run β) (b : β)
    (earlier : List Trace) : Reply → Run β
  | .ended log _ => ⟨earlier.reverse ++ log, .ok b⟩
  | .yielded log (.error e) _ _ => ⟨earlier.reverse ++ log, .error e⟩
  | .yielded log (.ok item) score (.mk _ pull) =>
    let earlier := log.reverse ++ earlier
    match step b item score with
    | ⟨own, .error e⟩ => ⟨earlier.reverse ++ own, .error e⟩
    | ⟨own, .ok b⟩ => (pull scoring).fold scoring step b (own.reverse ++ earlier)

/-- How many items memory has room for. An item takes 16 bytes at least, and no machine addresses
more than 57 bits. -/
def memoryLimit : Nat := Nat.pow 2 53

def keep (reversed : List β) : Run (List β) :=
  if reversed.length ≤ memoryLimit then return reversed.reverse else Logged.fail .aborted

namespace Cursor

def fold (scoring : Bool) (step : β → Item → Option Number → Run β) (b : β) (c : Cursor) : Run β :=
  (c.pull scoring).fold scoring step b []

/-- All items; the first failure is the outcome. -/
def drain (scoring : Bool) (c : Cursor) : Run (List Item) := do
  keep (← c.fold scoring (fun items item _ => return item :: items) [])

def drainScored (scoring : Bool) (c : Cursor) : Run (List (Item × Number)) := do
  keep (← c.fold scoring (fun items item score => return (item, score.getD .zero) :: items) [])

def count (scoring : Bool) (c : Cursor) : Run Nat := c.fold scoring (fun n _ _ => return n + 1) 0

/-- The first item with the cursor for the rest, `none` at the end. -/
def first? (scoring : Bool) (c : Cursor) : Run (Option (Item × Cursor)) :=
  match c.pull scoring with
  | .ended log _ => ⟨log, .ok none⟩
  | .yielded log (.ok item) _ rest => ⟨log, .ok (some (item, rest))⟩
  | .yielded log (.error e) _ _ => ⟨log, .error e⟩

/-- The first items, at most `n`; nothing is pulled after them. A failure among them is the
outcome. -/
def take (scoring : Bool) : Nat → Cursor → Run (List Item)
  | 0, _ => return []
  | n + 1, c => do
    match ← c.first? scoring with
    | some (item, rest) =>
      let items ← rest.take scoring n
      return item :: items
    | none => return []

end Cursor
end TreeQuery
