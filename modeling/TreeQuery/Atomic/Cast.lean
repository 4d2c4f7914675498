import TreeQuery.Atomic.Basic
import TreeQuery.Number.Numeral
import TreeQuery.Text.Blank
import TreeQuery.Error
/-!
# Casts and promotion

`castText` reads untyped text as a value of a type; `promote` adds the widening of numbers and the
reading of an `xs:anyURI` as a string. `checkAtomics` enforces a sequence type on constants.
-/

namespace TreeQuery

/-- Reads a double: the four written forms of the special values, or a numeral. The words for them
that a numeral may be are refused where they stand without a sign. -/
def readDouble? (s : List Char) : Option Number :=
  if s = "INF".toList || s = "+INF".toList then some (.infinite false)
  else if s = "-INF".toList then some (.infinite true)
  else if s = "NaN".toList then some .nan
  else if foldAscii s = "inf".toList || foldAscii s = "nan".toList then none
  else Number.read? .double s

def readDecimal? (s : List Char) : Option Number :=
  if s.any fun c => c == 'e' || c == 'E' then none else Number.read? .double s

def readInteger64? (s : List Char) : Option Int :=
  (readInteger? s).filter fun i => decide (Atomic.minInteger ≤ i ∧ i ≤ Atomic.maxInteger)

def readBoolean? (s : List Char) : Option Bool :=
  if s = "true".toList || s = ['1'] then some true
  else if s = "false".toList || s = ['0'] then some false
  else none

/-- The value of type `target` that a text denotes. Blanks around it do not count, save in texts. -/
def castText (s : String) (target : AtomicType) : Except Error Atomic :=
  let t := trimBlanks s.toList
  let orInvalid (v : Option Atomic) : Except Error Atomic :=
    match v with
    | some v => .ok v
    | none => .error (.of (.invalidForm s target))
  match target with
  | .anyAtomic | .untypedAtomic => .ok (.untyped s)
  | .string => .ok (.string s)
  | .anyURI => .ok (.anyURI (String.ofList t))
  | .boolean => orInvalid ((readBoolean? t).map .boolean)
  | .integer => orInvalid ((readInteger64? t).map .integer)
  | .decimal => orInvalid ((readDecimal? t).map .decimal)
  | .double => orInvalid ((readDouble? t).map .double)
  | .float => orInvalid ((readDouble? t).map fun x => .float (Format.single.ofNumber x))

namespace Atomic

/-- The value as one of type `target`, `none` if no rule leads there. -/
def promote (v : Atomic) (target : AtomicType) : Except Error (Option Atomic) :=
  match v, target with
  | .untyped s, t => (castText s t).map some
  | .integer i, .double => .ok (some (.double (Format.double.ofInt i)))
  | .integer i, .float => .ok (some (.float (Format.single.ofInt i)))
  | .decimal x, .double => .ok (some (.double x))
  | .decimal x, .float => .ok (some (.float (Format.single.ofNumber x)))
  | .float x, .double => .ok (some (.double x))
  | .anyURI s, .string => .ok (some (.string s))
  | _, _ => .ok none

end Atomic

def renderItemCount (n : Nat) : String := n.repr ++ " item(s)"

def checkAtomic (target : SeqType) (promote : Bool) (v : Atomic) : Except Error Atomic :=
  if target.item.admits v then .ok v
  else
    let mismatch := Error.dynamicMismatch v.render target none
    match target.item with
    | .atomic t =>
      if promote then
        match v.promote t with
        | .ok (some w) => .ok w
        | .ok none => .error mismatch
        | .error e => .error e
      else .error mismatch
    | _ => .error mismatch

/-- Checks constants against a sequence type: first their number, then one after the other. -/
def checkAtomics (values : List Atomic) (target : SeqType) (promote : Bool) :
    Except Error (List Atomic) :=
  if target.occurrence.admits values.length then values.mapM (checkAtomic target promote)
  else .error (.dynamicMismatch (renderItemCount values.length) target none)

end TreeQuery
