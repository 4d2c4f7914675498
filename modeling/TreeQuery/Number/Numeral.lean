import TreeQuery.Number.Rounding
/-!
# Numerals

Reading numbers from text. A numeral is an optional sign, digits with at most one point (at least
one digit somewhere) and an optional exponent; the words for infinity and for what is not a number
are read in any case of letters. All readers take the whole text or nothing, and know the ten ASCII
digits alone.
-/

namespace TreeQuery

def digitValue (c : Char) : Nat := c.toNat - '0'.toNat

def appendDigits (n : Nat) (ds : List Char) : Nat := ds.foldl (fun n c => 10 * n + digitValue c) n

/-- Reads a block of up to `2 ^ k` digits: the number they denote, ten to the power of their count,
and the digits after them. A block is read by halves, so that the factors of every product are about
equally long. -/
def digitBlock : Nat → List Char → Nat × Nat × List Char
  | _, [] => (0, 1, [])
  | 0, c :: r => (digitValue c, 10, r)
  | k + 1, ds =>
    let (a, weight, r) := digitBlock k ds
    let (b, unit, r) := digitBlock k r
    (a * unit + b, weight * unit, r)

def digitsValue (ds : List Char) : Nat := (digitBlock (ds.length.log2 + 1) ds).1

private theorem digitBlock_reads (k : Nat) (ds : List Char) :
    ∃ block, ds = block ++ (digitBlock k ds).2.2 ∧
      (∀ n, appendDigits n block = n * (digitBlock k ds).2.1 + (digitBlock k ds).1) ∧
      ((digitBlock k ds).2.2 = [] ∨ Nat.pow 2 k ≤ block.length) := by
  fun_induction digitBlock k ds with
  | case1 => exact ⟨[], by simp [appendDigits]⟩
  | case2 c r => exact ⟨[c], by simp [appendDigits, Nat.mul_comm]⟩
  | case3 k ds _ a weight r h b unit s h' ih ih' =>
    obtain ⟨p, hp, hv, hl⟩ := ih
    obtain ⟨q, hq, hw, hm⟩ := ih'
    simp only [h, h'] at *
    refine ⟨p ++ q, by rw [List.append_assoc, ← hq, ← hp], fun n => ?_, ?_⟩
    · rw [appendDigits, List.foldl_append, ← appendDigits, ← appendDigits, hw, hv]
      grind
    · rcases hm with hm | hm
      · exact .inl hm
      · rcases hl with hl | hl
        · simp [hl] at hq
          exact .inl hq.2
        · right
          rw [List.length_append]
          exact Nat.le_trans (Nat.le_of_eq (Nat.mul_two (Nat.pow 2 k))) (Nat.add_le_add hl hm)

theorem digitsValue_eq_appendDigits (ds : List Char) : digitsValue ds = appendDigits 0 ds := by
  obtain ⟨block, hds, hv, hl⟩ := digitBlock_reads (ds.length.log2 + 1) ds
  have hlt : ds.length < Nat.pow 2 (ds.length.log2 + 1) := Nat.lt_log2_self
  have hlen := congrArg List.length hds
  rw [List.length_append] at hlen
  rcases hl with hl | hl
  · rw [hl, List.append_nil] at hds
    have hv := hv 0
    rw [Nat.zero_mul, Nat.zero_add, ← hds] at hv
    exact hv.symm
  · omega

def splitSign : List Char → Bool × List Char
  | '+' :: r => (false, r)
  | '-' :: r => (true, r)
  | r => (false, r)

def readInteger? (s : List Char) : Option Int :=
  let (negative, ds) := splitSign s
  if ds.isEmpty || !ds.all Char.isDigit then none
  else some (if negative then -(digitsValue ds : Int) else digitsValue ds)

/-- A number as it is written: `±digits · 10 ^ scale`. -/
structure Numeral where
  negative : Bool
  digits : List Char
  scale : Int
deriving DecidableEq, Repr

namespace Numeral

/-- Reads what follows the mantissa: nothing, or `e` and an integer. -/
def readExponent? : List Char → Option Int
  | [] => some 0
  | c :: r => if c == 'e' || c == 'E' then readInteger? r else none

def readUnsigned? (negative : Bool) (s : List Char) : Option Numeral :=
  let whole := s.takeWhile Char.isDigit
  match s.dropWhile Char.isDigit with
  | '.' :: r =>
    let fraction := r.takeWhile Char.isDigit
    if whole.isEmpty && fraction.isEmpty then none
    else (readExponent? (r.dropWhile Char.isDigit)).map fun e =>
      ⟨negative, whole ++ fraction, e - fraction.length⟩
  | r => if whole.isEmpty then none else (readExponent? r).map (⟨negative, whole, ·⟩)

/-- The nearest number of the format. A numeral whose leading digit stands far outside every format
is not multiplied out. -/
def toNumber (f : Format) (n : Numeral) : Number :=
  let digits := n.digits.dropWhile (· == '0')
  let leading := digits.length + n.scale
  if digits.isEmpty || leading < -400 then .finite n.negative 0 f.minExponent
  else if 400 < leading then .infinite n.negative
  else if 0 ≤ n.scale then f.round n.negative (digitsValue digits * Nat.pow 10 n.scale.toNat) 1
  else f.round n.negative (digitsValue digits) (Nat.pow 10 (-n.scale).toNat)

end Numeral

def foldAscii (s : List Char) : List Char := s.map Char.toLower

/-- Reads a numeral, or one of the words `inf`, `infinity` and `nan` with an optional sign, in any
case. -/
def Number.read? (f : Format) (s : List Char) : Option Number :=
  let (negative, body) := splitSign s
  let word := foldAscii body
  if word = ['i', 'n', 'f'] || word = "infinity".toList then some (.infinite negative)
  else if word = ['n', 'a', 'n'] then some .nan
  else (Numeral.readUnsigned? negative body).map (Numeral.toNumber f)

end TreeQuery
