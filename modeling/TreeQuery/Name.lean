/-!
# Names and places

Expanded names, as variables, functions, node tests and error codes have them, and places in a
query's text.
-/

namespace TreeQuery

/-- A local name, possibly in a namespace. The namespace with the empty name differs from none. -/
structure ExpandedName where
  space : Option String
  part : String
deriving DecidableEq, Repr, Inhabited

namespace ExpandedName

def plain (part : String) : ExpandedName := ⟨none, part⟩

def render (n : ExpandedName) : String :=
  match n.space with
  | some uri => "Q\x7b" ++ uri ++ "\x7d" ++ n.part
  | none => n.part

end ExpandedName

/-- A place in the text of a query, line before column. -/
structure Location where
  line : Nat
  column : Nat
deriving DecidableEq, Repr, Inhabited

def Location.render (l : Location) : String := l.line.repr ++ ":" ++ l.column.repr

end TreeQuery
