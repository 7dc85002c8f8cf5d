/-!
# Double precision numbers as integers

A double is its 64-bit pattern. A finite one is read as a whole number of units of `2 ^ (-1074)`, the smallest positive
double: `significand * 2 ^ power` units. Rounding, remainders and decimal texts are then exact computations on natural
numbers.
-/

namespace NanScript

/-- What a 64-bit pattern stands for. The magnitude of a finite number is `significand * 2 ^ power` units of
`2 ^ (-1074)`. -/
inductive Binary64 where
  | nan
  | infinite (negative : Bool)
  | finite (negative : Bool) (significand power : Nat)
  deriving DecidableEq, Repr

namespace Binary64

def unitsPerOne : Nat := 1 <<< 1074

def leadingBit : Nat := 1 <<< 52

def magnitude (significand power : Nat) : Nat := significand <<< power

def infinityBits : Nat := 0x7FF0000000000000

def nanBits : UInt64 := 0x7FF8000000000000

def signBits (negative : Bool) : UInt64 := if negative then 0x8000000000000000 else 0

def decode (bits : UInt64) : Binary64 :=
  let negative := bits.toNat >>> 63 == 1
  let exponent := (bits.toNat >>> 52) % 2048
  let fraction := bits.toNat % leadingBit
  if exponent == 2047 then
    if fraction == 0 then infinite negative else nan
  else if exponent == 0 then finite negative fraction 0
  else finite negative (leadingBit + fraction) (exponent - 1)

/-- `numerator / denominator` to the nearest whole number, a half to the even one. -/
def roundDiv (numerator denominator : Nat) : Nat :=
  let quotient := numerator / denominator
  let twice := 2 * (numerator % denominator)
  if twice < denominator then quotient
  else if denominator < twice then quotient + 1
  else quotient + quotient % 2

/-- The bit pattern of the double nearest to `numerator / denominator` units, a half to the even significand. The
significand is written straight over the exponent: a carry out of it moves the exponent up by one, as it should, and
everything too large becomes infinity. -/
def ofUnits (numerator denominator : Nat) : UInt64 :=
  let power := (numerator / denominator).log2 - 52
  (min (power * leadingBit + roundDiv numerator (denominator <<< power)) infinityBits).toUInt64

def ofRatio (numerator denominator : Nat) : UInt64 := ofUnits (numerator * unitsPerOne) denominator

/-- The remainder of a division that is rounded toward zero. It has the sign of the dividend, and it is exact. -/
def remainder (dividend divisor : UInt64) : UInt64 :=
  match decode dividend, decode divisor with
  | finite negative significand power, finite _ divisorSignificand divisorPower =>
    if divisorSignificand == 0 then nanBits
    else
      signBits negative ||| ofUnits (magnitude significand power % magnitude divisorSignificand divisorPower) 1
  | finite .., infinite _ => dividend
  | _, _ => nanBits

end Binary64

end NanScript
