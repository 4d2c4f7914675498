import TreeQuery.Text.CaseTable
/-!
# Lower case

Small letters of a whole text. One character becomes one, with two exceptions: the capital I with a
dot becomes an i and a combining dot, and the capital sigma becomes the final sigma at the end of a
word, that is after a cased character and before none, characters without bearing on case passed
over.
-/

namespace TreeQuery

def inRanges (table : Array CharRange) (n : Nat) : Bool :=
  table.any fun r => r.first ≤ n && n ≤ r.last

def isCased (c : Char) : Bool := inRanges casedRanges c.toNat

def isCaseIgnorable (c : Char) : Bool := inRanges caseIgnorableRanges c.toNat

/-- The small form of a character that has a single one, else the character. -/
def smallForm (c : Char) : Char :=
  let n := c.toNat
  if n < 0x80 then c.toLower
  else
    match smallFormRuns.find? fun r => r.first ≤ n && n ≤ r.last &&
      (n - r.first) % r.stride == 0 with
    | some r => Char.ofNat (n + r.shift).toNat
    | none => c

/-- Whether the nearest character that bears on case is cased. -/
def meetsCased (s : List Char) : Bool :=
  match s.dropWhile isCaseIgnorable with
  | c :: _ => isCased c
  | [] => false

/-- The small form of `c` between the text before it, the nearest character first, and the text
after it. -/
def smallBetween (before : List Char) (c : Char) (after : List Char) : List Char :=
  if c = 'İ' then ['i', '\u0307']
  else if c = 'Σ' then [if meetsCased before && !meetsCased after then 'ς' else 'σ']
  else [smallForm c]

/-- Small letters of the rest of a text, put before the reversed small letters that are there
already. -/
def lowercaseFrom (before written : List Char) : List Char → List Char
  | [] => written.reverse
  | c :: r => lowercaseFrom (c :: before) ((smallBetween before c r).reverse ++ written) r

def lowercase (s : List Char) : List Char := lowercaseFrom [] [] s

end TreeQuery
