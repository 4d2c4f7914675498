import TreeQuery.Cursor.Basic
/-!
# Concatenation

`Cursor.chain` opens a cursor for each item of an input, when it gets there, and runs through them
one after the other.
-/

namespace TreeQuery

mutual

def Cursor.append : Cursor → Cursor → Cursor
  | .mk _ pull, next => .mk .unknown fun scoring => (pull scoring).append next scoring

def Reply.append : Reply → Cursor → Bool → Reply
  | .ended log _, next, scoring => (next.pull scoring).after log
  | .yielded log outcome score rest, next, _ => .yielded log outcome score (rest.append next)

end

/-- How a chain goes on at an item. Items that are not admitted are failures and are not
numbered. -/
structure Link where
  accept : Item → Except Failure Unit
  /-- The cursor for the item with this number. -/
  start : Bool → Nat → Item → Run Cursor

mutual

/-- The cursors of all items, `pos` items having been numbered before. -/
def Cursor.chain (link : Link) (pos : Nat) : Cursor → Cursor
  | .mk _ pull => .mk .unknown fun scoring => (pull scoring).chain link pos scoring

def Reply.chain (link : Link) (pos : Nat) (scoring : Bool) : Reply → Reply
  | .ended log _ => .ended log .unknown
  | .yielded log (.error e) _ rest => .yielded log (.error e) none (rest.chain link pos)
  | .yielded log (.ok item) _ rest =>
    match link.accept item with
    | .error e => .yielded log (.error e) none (rest.chain link pos)
    | .ok _ =>
      let opened := link.start scoring (pos + 1) item
      let log := log ++ opened.log
      let rest := rest.chain link (pos + 1)
      match opened.outcome with
      | .error e => .yielded log (.error e) none rest
      | .ok current => (current.pull scoring |>.append rest scoring).after log

end

end TreeQuery
