/-!
# Blanks

The characters that count as white space around a value and between words, in all scripts.
-/

namespace TreeQuery

/-- White space: the ASCII controls from tab to return, the blank, and the blanks of other
scripts. -/
def isBlank (c : Char) : Bool :=
  let n := c.toNat
  (0x9 ≤ n && n ≤ 0xD) || n == 0x20 || n == 0x85 || n == 0xA0 || n == 0x1680 ||
    (0x2000 ≤ n && n ≤ 0x200A)
    || n == 0x2028 || n == 0x2029 || n == 0x202F || n == 0x205F || n == 0x3000

def trimBlanks (s : List Char) : List Char :=
  ((s.dropWhile isBlank).reverse.dropWhile isBlank).reverse

/-- One character of a scan for words, which keeps the reversed run that has begun and the runs
before it. -/
def wordStep (scan : List Char × List (List Char)) (c : Char) : List Char × List (List Char) :=
  if !isBlank c then (c :: scan.1, scan.2)
  else if scan.1.isEmpty then scan
  else ([], scan.1.reverse :: scan.2)

/-- The words of a text: its maximal runs without a blank, in order. -/
def words (s : List Char) : List (List Char) :=
  let scan := s.foldl wordStep ([], [])
  (if scan.1.isEmpty then scan.2 else scan.1.reverse :: scan.2).reverse

end TreeQuery
