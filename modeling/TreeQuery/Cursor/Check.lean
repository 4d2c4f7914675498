import TreeQuery.Cursor.Basic
import TreeQuery.Item.Conformance
/-!
# Type checks that stream

`Cursor.check` hands on the items of its input as items of a target type. Too many items are noticed
at the first one too many, too few at the end of the input. The first failure ends the check, and
the input is not pulled again.
-/

namespace TreeQuery

/-- A type check: the target, whether items may be promoted to it, and the place it is reported
for. -/
structure TypeCheck where
  target : SeqType
  promote : Bool
  location : Option Location

namespace TypeCheck

def mismatch (t : TypeCheck) (found : String) : Failure :=
  .error (.dynamicMismatch found t.target t.location)

/-- What becomes of an item after `count` others: its type is checked first, then whether there is
room for it. -/
def next (t : TypeCheck) (forest : Forest) (count : Nat) (item : Item) : Run Item := do
  let item ← (conformItem forest t.target t.promote t.location item).locate t.location
  match t.target.occurrence.max with
  | some limit =>
    if limit ≤ count then Logged.fail (t.mismatch ("more than " ++ renderItemCount count))
      else return item
  | none => return item

def finish (t : TypeCheck) (count : Nat) : Except Failure Unit :=
  if count < t.target.occurrence.min then .error (t.mismatch (renderItemCount count)) else .ok ()

end TypeCheck

mutual

/-- The items as items of the target, `count` of them having been handed on before. -/
def Cursor.check (t : TypeCheck) (forest : Forest) (count : Nat) : Cursor → Cursor
  | .mk hint pull => .mk (hint.capped t.target.occurrence.max) fun scoring =>
    (pull scoring).check t forest count

def Reply.check (t : TypeCheck) (forest : Forest) (count : Nat) : Reply → Reply
  | .ended log hint =>
    let hint := hint.capped t.target.occurrence.max
    match t.finish count with
    | .error e => .yielded log (.error e) none (.finished hint)
    | .ok _ => .ended log hint
  | .yielded log (.error e) _ rest =>
    .yielded log (.error e) none (.finished (rest.hint.capped t.target.occurrence.max))
  | .yielded log (.ok item) score rest =>
    let checked := t.next forest count item
    match checked.outcome with
    | .error e => .yielded (log ++ checked.log) (.error e) none
      (.finished (rest.hint.capped t.target.occurrence.max))
    | .ok item => .yielded (log ++ checked.log) (.ok item) score (rest.check t forest (count + 1))

end

end TreeQuery
