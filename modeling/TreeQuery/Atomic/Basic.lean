import TreeQuery.Typing.ItemType
import TreeQuery.Number.Shortest
/-!
# Atomic values

Values without parts. Decimals, doubles and floats all carry an exact `Number`; they differ in the
formats that a cast rounds to, and in their types. Integers keep to 64 bits where they are read.
-/

namespace TreeQuery

inductive Atomic where
  | boolean (b : Bool)
  | string (s : String)
  | integer (i : Int)
  | decimal (x : Number)
  | double (x : Number)
  | float (x : Number)
  | anyURI (s : String)
  | untyped (s : String)
deriving DecidableEq, Repr, Inhabited

namespace Atomic

def maxInteger : Int := Nat.pow 2 63 - 1

def minInteger : Int := -Nat.pow 2 63

def type : Atomic → AtomicType
  | .boolean _ => .boolean
  | .string _ => .string
  | .integer _ => .integer
  | .decimal _ => .decimal
  | .double _ => .double
  | .float _ => .float
  | .anyURI _ => .anyURI
  | .untyped _ => .untypedAtomic

def isNumeric (v : Atomic) : Bool := v.type.isNumeric

/-- The value as a double, `none` if it is no number. An integer is rounded. -/
def number? : Atomic → Option Number
  | .integer i => some (Format.double.ofInt i)
  | .decimal x | .double x | .float x => some x
  | _ => none

def text? : Atomic → Option String
  | .string s | .anyURI s | .untyped s => some s
  | _ => none

def lexical : Atomic → String
  | .boolean b => if b then "true" else "false"
  | .string s | .anyURI s | .untyped s => s
  | .integer i => i.repr
  | .decimal x | .double x | .float x => x.text

def doubleQuotes (s : String) : String :=
  String.ofList (s.toList.flatMap fun c => if c = '"' then ['"', '"'] else [c])

def render : Atomic → String
  | .string s => "\"" ++ doubleQuotes s ++ "\""
  | .anyURI s => "xs:anyURI(\"" ++ s ++ "\")"
  | .untyped s => "xs:untypedAtomic(\"" ++ s ++ "\")"
  | .boolean b => (if b then "true" else "false") ++ "()"
  | .float x => "xs:float(\"" ++ x.text ++ "\")"
  | v => v.lexical

/-- The effective boolean value of a single value: texts count by having characters, numbers by not
being zero. -/
def isTruthy : Atomic → Bool
  | .boolean b => b
  | .string s | .anyURI s | .untyped s => !s.isEmpty
  | .integer i => i != 0
  | .decimal x | .double x | .float x => x.isTruthy

/-- Sameness of constants: equal types, and equal values, numbers being compared by value. -/
def same : Atomic → Atomic → Bool
  | .boolean a, .boolean b => a == b
  | .string a, .string b => a == b
  | .integer a, .integer b => a == b
  | .decimal a, .decimal b => a.same b
  | .double a, .double b => a.same b
  | .float a, .float b => a.same b
  | .anyURI a, .anyURI b => a == b
  | .untyped a, .untyped b => a == b
  | _, _ => false

end Atomic

def ItemType.admits (t : ItemType) (v : Atomic) : Bool := t.admitsAtomic v.type

end TreeQuery
