import TreeQuery.Number.Basic
/-!
# Rounding into a format

A `Format` says which numbers a binary interchange format holds. `Format.round` takes an exact
quotient to the nearest of them, a tie going to the neighbour with an even last digit, and beyond
the greatest one to infinity. All arithmetic of the library is exact first and rounded once.
-/

namespace TreeQuery

/-- A binary format: the digits of a mantissa, and the exponents that its last digit can have. -/
structure Format where
  precision : Nat
  minExponent : Int
  maxExponent : Int
  exponentBits : Nat
deriving DecidableEq, Repr

namespace Format

def double : Format := ⟨53, -1074, 971, 11⟩

def single : Format := ⟨24, -149, 104, 8⟩

end Format

/-- The integer nearest to `num / den`; a tie goes to the even one. -/
def roundHalfEven (num den : Nat) : Nat :=
  let q := num / den
  let r := num % den
  if 2 * r < den then q
  else if den < 2 * r then q + 1
  else q + q % 2

def scaleFraction (num den : Nat) (exponent : Int) : Nat × Nat :=
  if 0 ≤ exponent then (num, den * powerOfTwo exponent.toNat) else
    (num * powerOfTwo (-exponent).toNat, den)

/-- The exponent of the leading binary digit of `num / den`, which are both positive. -/
def leadingExponent (num den : Nat) : Int :=
  let guess : Int := (num.log2 : Int) - den.log2
  let (a, b) := scaleFraction num den guess
  if b ≤ a then guess else guess - 1

namespace Format

/-- The number of the format nearest to `±num / den`. -/
def round (f : Format) (negative : Bool) (num den : Nat) : Number :=
  if num = 0 then .finite negative 0 f.minExponent
  else
    let exponent := Max.max (leadingExponent num den - (f.precision - 1)) f.minExponent
    let (a, b) := scaleFraction num den exponent
    let mantissa := roundHalfEven a b
    let (mantissa, exponent) :=
      if mantissa = powerOfTwo f.precision then (powerOfTwo (f.precision - 1), exponent + 1) else
        (mantissa, exponent)
    if f.maxExponent < exponent then .infinite negative else .finite negative mantissa exponent

def ofNumber (f : Format) : Number → Number
  | .finite n m e =>
    if 0 ≤ e then f.round n (m * powerOfTwo e.toNat) 1 else f.round n m (powerOfTwo (-e).toNat)
  | x => x

def ofInt (f : Format) (i : Int) : Number := f.round (i < 0) i.natAbs 1

end Format

namespace Number

/-- The sum of two numbers, rounded. A sum of zeros is negative only if both are. -/
def add (f : Format) : Number → Number → Number
  | .nan, _ => .nan
  | _, .nan => .nan
  | .infinite a, .infinite b => if a = b then .infinite a else .nan
  | .infinite a, _ => .infinite a
  | _, .infinite b => .infinite b
  | .finite a m e, .finite b n g =>
    let unit := min e g
    let sum := scaled a m e unit + scaled b n g unit
    f.ofNumber (.finite (if sum = 0 then a && b else sum < 0) sum.natAbs unit)

def divideBy (f : Format) (count : Nat) : Number → Number
  | .finite n 0 _ => .finite n 0 f.minExponent
  | .finite n m e =>
    if 0 ≤ e then f.round n (m * powerOfTwo e.toNat) count else
      f.round n m (count * powerOfTwo (-e).toNat)
  | x => x

end Number
end TreeQuery
