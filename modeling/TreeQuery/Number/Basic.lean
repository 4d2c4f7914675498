/-!
# Binary numbers

A `Number` is what a binary floating-point format can hold: an exact value `±mantissa · 2 ^
exponent`, an infinity, or the value that is not a number. The type knows no format; `Format.round`
in `Number.Rounding` brings a result back into one. Two numbers are compared by value, so `finite
false 1 1` and `finite false 2 0` compare equal, and so do the two zeros.
-/

namespace TreeQuery

/-- The power of two. A small one is a shifted word, which takes no arithmetic on long numbers. -/
def powerOfTwo (k : Nat) : Nat :=
  if k < 64 then ((1 : UInt64) <<< k.toUInt64).toNat else Nat.pow 2 k

theorem powerOfTwo_eq (k : Nat) : powerOfTwo k = Nat.pow 2 k := by
  unfold powerOfTwo
  split
  · next h =>
    have word : k.toUInt64.toNat = k := Nat.mod_eq_of_lt (Nat.lt_trans h (by decide))
    rw [UInt64.toNat_shiftLeft, word, Nat.mod_eq_of_lt h, Nat.shiftLeft_eq]
    exact (Nat.mod_eq_of_lt
      (Nat.mul_lt_mul_of_le_of_lt (Nat.le_refl 1) (Nat.pow_lt_pow_right (by decide) h)
      (by decide))).trans (Nat.one_mul _)
  · rfl

/-- A binary number. A `finite` number keeps its sign apart, so that zero has one too. -/
inductive Number where
  | nan
  | infinite (negative : Bool)
  | finite (negative : Bool) (mantissa : Nat) (exponent : Int)
deriving DecidableEq, Repr, Inhabited

namespace Number

def zero : Number := .finite false 0 0

def ofNat (n : Nat) : Number := .finite false n 0

def ofInt (i : Int) : Number := .finite (i < 0) i.natAbs 0

def isNaN : Number → Bool
  | .nan => true
  | _ => false

/-- The value of `±mantissa · 2 ^ exponent` counted in units of `2 ^ unit`, for a `unit` not above
`exponent`. -/
def scaled (negative : Bool) (mantissa : Nat) (exponent unit : Int) : Int :=
  let size : Int := mantissa * powerOfTwo (exponent - unit).toNat
  if negative then -size else size

/-- Orders two numbers by value. Nothing is ordered with the number that is not one. -/
def compare? : Number → Number → Option Ordering
  | .nan, _ => none
  | _, .nan => none
  | .infinite a, .infinite b => some (if a = b then .eq else if a then .lt else .gt)
  | .infinite a, .finite .. => some (if a then .lt else .gt)
  | .finite .., .infinite b => some (if b then .gt else .lt)
  | .finite a m e, .finite b n f =>
    let unit := min e f
    some (compare (scaled a m e unit) (scaled b n f unit))

/-- Equality by value: zeros of both signs are equal, and what is not a number equals nothing. -/
def same (x y : Number) : Bool := x.compare? y == some .eq

def below (x y : Number) : Bool := x.compare? y == some .lt

def wholePart? : Number → Option Nat
  | .finite _ m e => some (if 0 ≤ e then m * powerOfTwo e.toNat else m / powerOfTwo (-e).toNat)
  | _ => none

def isIntegral : Number → Bool
  | .finite _ m e => 0 ≤ e || m % powerOfTwo (-e).toNat == 0
  | _ => false

/-- Whether the number is an infinity or lies on the far side of zero. -/
def isNegative : Number → Bool
  | .nan => false
  | .infinite n => n
  | .finite n m _ => n && m != 0

def isTruthy : Number → Bool
  | .nan => false
  | .infinite _ => true
  | .finite _ m _ => m != 0

def max (x y : Number) : Number :=
  match x.compare? y with
  | some .lt => y
  | some _ => x
  | none => if x.isNaN then y else x

/-- Moves a number below zero up to zero and one above one down to one. -/
def clampUnit (x : Number) : Number :=
  if x.below zero then zero else if (ofNat 1).below x then ofNat 1 else x

theorem compare?_eq_none_iff {x y : Number} : x.compare? y = none ↔ x.isNaN ∨ y.isNaN := by
  cases x <;> cases y <;> simp [compare?, isNaN]

end Number
end TreeQuery
