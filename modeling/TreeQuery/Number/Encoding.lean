import TreeQuery.Number.Rounding
/-!
# Interchange encoding

The words that stand for the numbers of a format: sign, biased exponent and mantissa without its
leading digit, from the highest bit down. The exponent field of all ones holds the infinities and
what is not a number, the field of zeros the numbers too small for a leading digit.
-/

namespace TreeQuery.Format

/-- The exponent field of infinities and of what is not a number. -/
def topField (f : Format) : Nat := powerOfTwo f.exponentBits - 1

/-- Digits of the mantissa that are written. -/
def fractionBits (f : Format) : Nat := f.precision - 1

/-- The word of a number of the format, `none` for what is not a number. -/
def encode? (f : Format) (x : Number) : Option Nat :=
  let word (negative : Bool) (field fraction : Nat) : Nat :=
    ((if negative then powerOfTwo f.exponentBits else 0) + field) *
      powerOfTwo f.fractionBits + fraction
  match f.ofNumber x with
  | .nan => none
  | .infinite n => some (word n f.topField 0)
  | .finite n m e =>
    let leading := powerOfTwo f.fractionBits
    if m < leading then some (word n 0 m)
    else some (word n (e - f.minExponent + 1).toNat (m - leading))

def decode (f : Format) (word : Nat) : Number :=
  let leading := powerOfTwo f.fractionBits
  let fraction := word % leading
  let field := word / leading % powerOfTwo f.exponentBits
  let negative := word / leading / powerOfTwo f.exponentBits % 2 == 1
  if field = f.topField then (if fraction = 0 then .infinite negative else .nan)
  else if field = 0 then .finite negative fraction f.minExponent
  else .finite negative (fraction + leading) (f.minExponent + (field - 1 : Nat))

end TreeQuery.Format
