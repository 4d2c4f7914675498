import TreeQuery.Cursor.Basic
import TreeQuery.Window
/-!
# Filters that stream

`Cursor.select` keeps the items that pass a judgement, which is told the number of the item.
`Cursor.window` does so for the items in a window of positions, skips those before it and never
pulls once the window is passed. A failure of the input is handed on and not counted as an item.
-/

namespace TreeQuery

/-- Judges the item at a position, with or without scores: its score if it passes. -/
abbrev Judgement := Bool → Nat → Item → Run (Option Number)

mutual

/-- The items that pass, `pos` items having been judged before. -/
def Cursor.select (judge : Judgement) (pos : Nat) : Cursor → Cursor
  | .mk hint pull => .mk hint.atMost fun scoring => (pull scoring).select judge pos scoring []

def Reply.select (judge : Judgement) (pos : Nat) (scoring : Bool) (earlier : List Trace) :
    Reply → Reply
  | .ended log hint => .ended (earlier.reverse ++ log) hint.atMost
  | .yielded log (.error e) _ rest =>
    .yielded (earlier.reverse ++ log) (.error e) none (rest.select judge pos)
  | .yielded log (.ok item) _ rest =>
    let verdict := judge scoring (pos + 1) item
    let earlier := verdict.log.reverse ++ (log.reverse ++ earlier)
    match verdict.outcome with
    | .error e => .yielded earlier.reverse (.error e) none (rest.select judge (pos + 1))
    | .ok (some score) =>
      .yielded earlier.reverse (.ok item) (if scoring then some score else none)
        (rest.select judge (pos + 1))
    | .ok none =>
      match rest with
      | .mk _ pull => (pull scoring).select judge (pos + 1) scoring earlier

end

mutual

/-- The items in the window that pass, `pos` items having been pulled before. -/
def Cursor.window (w : Window) (judge : Judgement) (pos : Nat) : Cursor → Cursor
  | .mk hint pull =>
    let hint := hint.capped (some w.width)
    .mk hint fun scoring =>
      if pos < w.last then (pull scoring).window w judge pos scoring [] else .ended [] hint

/-- The reply to a pull on the items in the window that pass: pulls on before the window and while
items fail. What was logged earlier is given in reverse. -/
def Reply.window (w : Window) (judge : Judgement) (pos : Nat) (scoring : Bool)
    (earlier : List Trace) : Reply → Reply
  | .ended log hint => .ended (earlier.reverse ++ log) (hint.capped (some w.width))
  | .yielded log (.error e) _ rest =>
    .yielded (earlier.reverse ++ log) (.error e) none (rest.window w judge pos)
  | .yielded log (.ok item) _ rest =>
    let verdict := if pos + 1 < w.first then return none else judge scoring (pos + 1) item
    let earlier := verdict.log.reverse ++ (log.reverse ++ earlier)
    match verdict.outcome with
    | .error e => .yielded earlier.reverse (.error e) none (rest.window w judge (pos + 1))
    | .ok (some score) =>
      .yielded earlier.reverse (.ok item) (if scoring then some score else none)
        (rest.window w judge (pos + 1))
    | .ok none =>
      match rest with
      | .mk hint pull =>
        if pos + 1 < w.last then (pull scoring).window w judge (pos + 1) scoring earlier
        else .ended earlier.reverse (hint.capped (some w.width))

end

end TreeQuery
