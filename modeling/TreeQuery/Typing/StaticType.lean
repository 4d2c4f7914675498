import TreeQuery.Typing.ItemType
/-!
# Static types

What is known of an expression's value before it is evaluated: a sequence type and, where it is
known, the exact number of items. A known size decides the occurrence indicator, and an indicator
that leaves one size decides that size; the ways to build a static type keep the two in step.
-/

namespace TreeQuery

structure StaticType where
  item : ItemType
  occurrence : Occurrence
  size : Option Nat
deriving DecidableEq, Repr, Inhabited

namespace StaticType

def of (item : ItemType) (occurrence : Occurrence) : StaticType :=
  ⟨item, occurrence, match occurrence with
    | .zero => some 0
    | .one => some 1
    | _ => none⟩

def sized (item : ItemType) (size : Nat) : StaticType := ⟨item, .ofSize size, some size⟩

/-- The static type with the given size if there is one, else with the given indicator. -/
def make (item : ItemType) (occurrence : Occurrence) (size : Option Nat) : StaticType :=
  match size with
  | some n => sized item n
  | none => of item occurrence

def ofSeqType (t : SeqType) : StaticType := of t.item t.occurrence

def anything : StaticType := of .any .zeroOrMore

def empty : StaticType := of .any .zero

def boolean : StaticType := of (.atomic .boolean) .one

def seqType (t : StaticType) : SeqType := ⟨t.item, t.occurrence⟩

def isOne (t : StaticType) : Bool := t.occurrence == .one

def isZero (t : StaticType) : Bool := t.occurrence == .zero

def atMostOne (t : StaticType) : Bool := t.occurrence.atMostOne

def mayBeNumber (t : StaticType) : Bool := t.occurrence != .zero && t.item.mayBeNumber

def instanceOf (t : StaticType) (s : SeqType) : Bool := t.seqType.instanceOf s

def union (a b : StaticType) : StaticType :=
  let item := if a.isZero then b.item else if b.isZero then a.item else a.item.union b.item
  make item (a.occurrence.union b.occurrence) (if a.size = b.size then a.size else none)

def render (t : StaticType) : String := t.seqType.render

end StaticType
end TreeQuery
