import TreeQuery.Error
import TreeQuery.Number.Rounding
import TreeQuery.Text.Blank
import TreeQuery.Text.Lowercase
/-!
# Full-text matching

A matcher says whether a text satisfies a query of words, and how relevant it is. `matchTokens` is
the plain one: the words of the query have to be among the words of the text, in small letters, and
the relevance is the share of the text's words that the query has.
-/

namespace TreeQuery

/-- Whether a text matches, with its relevance between 0 and 1 if that is known. -/
structure TextMatch where
  found : Bool
  score : Option Number
deriving DecidableEq, Repr, Inhabited

namespace TextMatch

/-- A match of this relevance, which is moved into its bounds. -/
def hit (score : Number) : TextMatch := ⟨true, some score.clampUnit⟩

def miss : TextMatch := ⟨false, none⟩

def best (a b : TextMatch) : TextMatch :=
  if b.found then
    ⟨true, match a.score, b.score with
      | some x, some y => some (x.max y)
      | some x, none => some x
      | none, y => y⟩
  else a

end TextMatch

abbrev Matcher := String → List String → Except Error TextMatch

/-- Matches words as wholes and in small letters; every word of the query has to occur. -/
def matchTokens (text : String) (query : List String) : TextMatch :=
  let tokens := (words text.toList).map lowercase
  let wanted := query.map fun w => lowercase w.toList
  if tokens.isEmpty || wanted.isEmpty || !wanted.all fun w => tokens.contains w then .miss
  else .hit
    (Format.double.round false (tokens.filter fun t => wanted.contains t).length tokens.length)

end TreeQuery
