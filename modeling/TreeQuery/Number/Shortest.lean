import TreeQuery.Number.Rounding
/-!
# Shortest decimal text

The decimal written for a number has the fewest digits that round back to it, and of those it is the
one nearest to the number; of two equally near ones the greater is taken. A grid of decimals holds
such a one only if it holds one next to the number, so two candidates per grid are enough.
-/

namespace TreeQuery

/-- A decimal number `digits · 10 ^ scale`. -/
structure Decimal where
  digits : Nat
  scale : Int
deriving DecidableEq, Repr

/-- What the shortest text of a positive number is looked for in: the number and the two borders of
the values that round to it, all over one denominator, and whether the borders themselves still
do. -/
structure RoundingInterval where
  low : Nat
  value : Nat
  high : Nat
  den : Nat
  closed : Bool

namespace RoundingInterval

/-- The interval of `mantissa · 2 ^ exponent`, which is a number of the format. Below a power of two
the format's numbers lie twice as close, save where it has no smaller exponent. -/
def ofNumber (f : Format) (mantissa : Nat) (exponent : Int) : RoundingInterval :=
  let gap := if mantissa = powerOfTwo (f.precision - 1) ∧ f.minExponent < exponent then 1 else 2
  let unit := exponent - 2
  let up := if 0 ≤ unit then powerOfTwo unit.toNat else 1
  let den := if 0 ≤ unit then 1 else powerOfTwo (-unit).toNat
  ⟨(4 * mantissa - gap) * up, 4 * mantissa * up, (4 * mantissa + 2) * up, den, mantissa % 2 == 0⟩

/-- Whether `num / unit` (a fraction over the interval's own denominator) lies in the interval. -/
def contains (i : RoundingInterval) (num unit : Nat) : Bool :=
  let (low, x, high) := (i.low * unit, num * i.den, i.high * unit)
  if i.closed then decide (low ≤ x ∧ x ≤ high) else decide (low < x ∧ x < high)

/-- The decimal with steps of `10 ^ scale` that lies in the interval and is nearest to its number,
if there is one. -/
def onGrid? (i : RoundingInterval) (scale : Int) : Option Nat :=
  let up := if 0 ≤ scale then Nat.pow 10 scale.toNat else 1
  let unit := if 0 ≤ scale then 1 else Nat.pow 10 (-scale).toNat
  let down := i.value * unit / (i.den * up)
  let below := i.contains (down * up) unit
  let above := i.contains ((down + 1) * up) unit
  -- twice the number against the two candidates together tells which of them is nearer
  let upper := decide ((2 * down + 1) * up * i.den ≤ 2 * i.value * unit)
  if below && (!above || !upper) then some down
  else if above then some (down + 1)
  else none

def search (i : RoundingInterval) : Nat → Int → Option Decimal
  | 0, _ => none
  | fuel + 1, scale =>
    match i.onGrid? scale with
    | some d => some ⟨d, scale⟩
    | none => search i fuel (scale - 1)

end RoundingInterval

/-- The shortest decimal of a positive number of the format. Its first grid is coarser than the
number; twenty steps below the leading digit every grid has a decimal in the interval. -/
def shortestDecimal (f : Format) (mantissa : Nat) (exponent : Int) : Decimal :=
  let i := RoundingInterval.ofNumber f mantissa exponent
  let leading : Int := (((mantissa.log2 : Int) + exponent) * 30103) / 100000
  (i.search 24 (leading + 2)).getD ⟨mantissa, 0⟩

namespace Decimal

def positional (d : Decimal) : String :=
  let digits := Nat.toDigits 10 d.digits
  if 0 ≤ d.scale then String.ofList (digits ++ List.replicate d.scale.toNat '0')
  else
    let places := (-d.scale).toNat
    let digits := List.replicate (places + 1 - digits.length) '0' ++ digits
    let whole := digits.length - places
    String.ofList (digits.take whole ++ '.' :: digits.drop whole)

end Decimal

namespace Number

/-- The text of a number: an integral one below `10 ^ 15` is written as an integer (without the sign
of a zero), any other by its shortest decimal. -/
def text (x : Number) : String :=
  match x with
  | .nan => "NaN"
  | .infinite negative => if negative then "-INF" else "INF"
  | .finite negative _ _ =>
    match x.wholePart? with
    | some n =>
      if x.isIntegral && decide (n < Nat.pow 10 15) then
        if negative && n != 0 then "-" ++ n.repr else n.repr
      else
        match Format.double.ofNumber x with
        | .finite _ m e =>
          (if negative then "-" else "") ++ (shortestDecimal .double m e).positional
        | _ => ""
    | none => ""

end Number
end TreeQuery
