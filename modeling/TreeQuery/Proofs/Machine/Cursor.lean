import TreeQuery.Cursor.Check
import TreeQuery.Proofs.Machine.State
/-!
# Cursors on the machine

A `Live` cursor is pulled in the state that the machine has at that moment, and hands on the state
that the pull leaves. The ways to build and to consume live cursors are those for cursors:
predicates and operands run on the machine, which has to put the focus back after each item.
-/

namespace TreeQuery

mutual

/-- A cursor that shares the state of the machine. -/
inductive Live where
  | mk (pull : Env → Answer)

/-- What a pull answers, and the state that it leaves. -/
inductive Answer where
  | ended (log : List Trace) (state : Env)
  | yielded (log : List Trace) (outcome : Except Failure Item) (score : Option Number)
    (state : Env) (rest : Live)

end

namespace Live

def pull : Live → Env → Answer
  | mk pull => pull

def ofScored : List (Item × Option Number) → Live
  | [] => mk fun s => .ended [] s
  | (item, score) :: rest => mk fun s => .yielded [] (.ok item) score s (ofScored rest)

def ofList (items : List Item) : Live := ofScored (items.map fun item => (item, none))

def single (item : Item) : Live := ofList [item]

def ofBool (b : Bool) : Live := single (.atomic (.boolean b))

def ofNat (n : Nat) : Live := single (.atomic (.integer (min (n : Int) Atomic.maxInteger)))

end Live

def Answer.after (earlier : List Trace) : Answer → Answer
  | .ended log s => .ended (earlier ++ log) s
  | .yielded log outcome score s rest => .yielded (earlier ++ log) outcome score s rest

mutual

def Live.append : Live → Live → Live
  | .mk pull, next => .mk fun s => (pull s).append next

def Answer.append : Answer → Live → Answer
  | .ended log s, next => (next.pull s).after log
  | .yielded log outcome score s rest, next => .yielded log outcome score s (rest.append next)

end

mutual

def Live.chain (accept : Item → Except Failure Unit) (start : Nat → Item → Machine Live)
    (pos : Nat) : Live → Live
  | .mk pull => .mk fun s => (pull s).chain accept start pos

def Answer.chain (accept : Item → Except Failure Unit) (start : Nat → Item → Machine Live)
    (pos : Nat) : Answer → Answer
  | .ended log s => .ended log s
  | .yielded log (.error e) _ s rest => .yielded log (.error e) none s (rest.chain accept start pos)
  | .yielded log (.ok item) _ s rest =>
    match accept item with
    | .error e => .yielded log (.error e) none s (rest.chain accept start pos)
    | .ok _ =>
      let opened := start (pos + 1) item s
      let log := log ++ opened.1.log
      let rest := rest.chain accept start (pos + 1)
      match opened.1.outcome with
      | .error e => .yielded log (.error e) none opened.2 rest
      | .ok current => ((current.pull opened.2).append rest).after log

end

mutual

def Live.select (judge : Nat → Item → Machine (Option Number)) (pos : Nat) : Live → Live
  | .mk pull => .mk fun s => (pull s).select judge pos []

/-- The answer to a pull on the items that pass. What was logged earlier is given in reverse. -/
def Answer.select (judge : Nat → Item → Machine (Option Number)) (pos : Nat)
    (earlier : List Trace) : Answer → Answer
  | .ended log s => .ended (earlier.reverse ++ log) s
  | .yielded log (.error e) _ s rest =>
    .yielded (earlier.reverse ++ log) (.error e) none s (rest.select judge pos)
  | .yielded log (.ok item) _ s rest =>
    let verdict := judge (pos + 1) item s
    let earlier := verdict.1.log.reverse ++ (log.reverse ++ earlier)
    match verdict.1.outcome with
    | .error e => .yielded earlier.reverse (.error e) none verdict.2 (rest.select judge (pos + 1))
    | .ok (some score) =>
      .yielded earlier.reverse (.ok item) (if verdict.2.scoring then some score else none) verdict.2
        (rest.select judge (pos + 1))
    | .ok none =>
      match rest with
      | .mk pull => (pull verdict.2).select judge (pos + 1) earlier

end

mutual

def Live.window (w : Window) (judge : Nat → Item → Machine (Option Number)) (pos : Nat) :
    Live → Live
  | .mk pull => .mk fun s => if pos < w.last then (pull s).window w judge pos [] else .ended [] s

def Answer.window (w : Window) (judge : Nat → Item → Machine (Option Number)) (pos : Nat)
    (earlier : List Trace) : Answer → Answer
  | .ended log s => .ended (earlier.reverse ++ log) s
  | .yielded log (.error e) _ s rest =>
    .yielded (earlier.reverse ++ log) (.error e) none s (rest.window w judge pos)
  | .yielded log (.ok item) _ s rest =>
    let verdict := (if pos + 1 < w.first then pure none else judge (pos + 1) item) s
    let earlier := verdict.1.log.reverse ++ (log.reverse ++ earlier)
    match verdict.1.outcome with
    | .error e => .yielded earlier.reverse (.error e) none verdict.2 (rest.window w judge (pos + 1))
    | .ok (some score) =>
      .yielded earlier.reverse (.ok item) (if verdict.2.scoring then some score else none) verdict.2
        (rest.window w judge (pos + 1))
    | .ok none =>
      match rest with
      | .mk pull =>
        if pos + 1 < w.last then (pull verdict.2).window w judge (pos + 1) earlier
        else .ended earlier.reverse verdict.2

end

mutual

def Live.check (t : TypeCheck) (count : Nat) : Live → Live
  | .mk pull => .mk fun s => (pull s).check t count

def Answer.check (t : TypeCheck) (count : Nat) : Answer → Answer
  | .ended log s =>
    match t.finish count with
    | .error e => .yielded log (.error e) none s (.ofList [])
    | .ok _ => .ended log s
  | .yielded log (.error e) _ s _ => .yielded log (.error e) none s (.ofList [])
  | .yielded log (.ok item) score s rest =>
    let checked := t.next s.forest count item
    match checked.outcome with
    | .error e => .yielded (log ++ checked.log) (.error e) none s (.ofList [])
    | .ok item => .yielded (log ++ checked.log) (.ok item) score s (rest.check t (count + 1))

end

def Answer.fold {β : Type} (step : β → Item → Option Number → Run β) (b : β)
    (earlier : List Trace) : Answer → Run β × Env
  | .ended log s => (⟨earlier.reverse ++ log, .ok b⟩, s)
  | .yielded log (.error e) _ s _ => (⟨earlier.reverse ++ log, .error e⟩, s)
  | .yielded log (.ok item) score s (.mk pull) =>
    let earlier := log.reverse ++ earlier
    match step b item score with
    | ⟨own, .error e⟩ => (⟨earlier.reverse ++ own, .error e⟩, s)
    | ⟨own, .ok b⟩ => (pull s).fold step b (own.reverse ++ earlier)

namespace Live

def fold {β : Type} (step : β → Item → Option Number → Run β) (b : β) (c : Live) : Machine β :=
  fun s => (c.pull s).fold step b []

def drain (c : Live) : Machine (List Item) := do
  let items ← c.fold (fun items item _ => return item :: items) []
  Machine.look fun _ => keep items

def drainScored (c : Live) : Machine (List (Item × Number)) := do
  let items ← c.fold (fun items item score => return (item, score.getD .zero) :: items) []
  Machine.look fun _ => keep items

def count (c : Live) : Machine Nat := c.fold (fun n _ _ => return n + 1) 0

def first? (c : Live) : Machine (Option (Item × Live)) := fun s =>
  match c.pull s with
  | .ended log s => (⟨log, .ok none⟩, s)
  | .yielded log (.ok item) _ s rest => (⟨log, .ok (some (item, rest))⟩, s)
  | .yielded log (.error e) _ s _ => (⟨log, .error e⟩, s)

def expectEnd (c : Live) : Machine Unit := do
  match ← c.first? with
  | none => return ()
  | some _ => Machine.look fun _ => Logged.failWith (.truthUndefined severalAtomic)

def decider (location : Option Location) (c : Live) : Machine (Option Item) := do
  match ← c.first? with
  | none => return none
  | some (.node n, _) => return some (.node n)
  | some (.atomic v, rest) =>
    rest.expectEnd.locate location
    return some (.atomic v)
  | some (.function f, _) =>
    Machine.look fun _ =>
      (Logged.failWith (.truthUndefined ("function item " ++ f.render))).locate location

def truth (location : Option Location) (c : Live) : Machine Bool := do
  match ← c.decider location with
  | some (.atomic v) => return v.isTruthy
  | some _ => return true
  | none => return false

def predicateTruth (location : Option Location) (position : Nat) (c : Live) : Machine Bool := do
  match ← c.decider location with
  | some (.atomic v) =>
    match v.number? with
    | some x => return x.same (Format.double.ofInt position)
    | none => return v.isTruthy
  | some _ => return true
  | none => return false

end Live

end TreeQuery
