import NanScript.Number.Binary64

/-!
# Arithmetic of doubles

Each operation computes the exact result in units and rounds it once. A result that has no digits (an infinity, or no
number at all) is decided first. There is one pattern for "no number": which one a processor makes is of no
consequence, as none of them equals anything.
-/

namespace NanScript.Binary64

def rounded (negative : Bool) (numerator denominator : Nat) : UInt64 :=
  signBits negative ||| ofUnits numerator denominator

def infinityOf (negative : Bool) : UInt64 := signBits negative ||| infinityBits.toUInt64

def negate (bits : UInt64) : UInt64 := bits ^^^ 0x8000000000000000

def ofInt (number : Int) : UInt64 := rounded (number < 0) (number.natAbs * unitsPerOne) 1

def units (negative : Bool) (significand power : Nat) : Int :=
  if negative then -(magnitude significand power : Int) else magnitude significand power

/-- A sum of zero is positive unless both terms are negative. -/
def add (a b : UInt64) : UInt64 :=
  match decode a, decode b with
  | nan, _ | _, nan => nanBits
  | infinite left, infinite right => if left == right then infinityOf left else nanBits
  | infinite left, _ => infinityOf left
  | _, infinite right => infinityOf right
  | finite left significand power, finite right otherSignificand otherPower =>
    let sum := units left significand power + units right otherSignificand otherPower
    rounded (if sum = 0 then left && right else sum < 0) sum.natAbs 1

def sub (a b : UInt64) : UInt64 := add a (negate b)

def mul (a b : UInt64) : UInt64 :=
  match decode a, decode b with
  | nan, _ | _, nan => nanBits
  | infinite left, infinite right => infinityOf (left != right)
  | infinite left, finite right significand _ => if significand = 0 then nanBits else infinityOf (left != right)
  | finite left significand _, infinite right => if significand = 0 then nanBits else infinityOf (left != right)
  | finite left significand power, finite right otherSignificand otherPower =>
    rounded (left != right) (magnitude significand power * magnitude otherSignificand otherPower) unitsPerOne

def div (a b : UInt64) : UInt64 :=
  match decode a, decode b with
  | nan, _ | _, nan => nanBits
  | infinite _, infinite _ => nanBits
  | infinite left, finite right _ _ => infinityOf (left != right)
  | finite left _ _, infinite right => signBits (left != right)
  | finite left significand power, finite right otherSignificand otherPower =>
    if otherSignificand = 0 then (if significand = 0 then nanBits else infinityOf (left != right))
    else rounded (left != right) (magnitude significand power * unitsPerOne) (magnitude otherSignificand otherPower)

/-- The order of two doubles. Zeros are equal whatever their signs, and what is no number has no order. -/
def compare? (a b : UInt64) : Option Ordering :=
  match decode a, decode b with
  | nan, _ | _, nan => none
  | infinite left, infinite right => some (compare right.toNat left.toNat)
  | infinite left, _ => some (if left then .lt else .gt)
  | _, infinite right => some (if right then .gt else .lt)
  | finite left significand power, finite right otherSignificand otherPower =>
    some (compare (units left significand power) (units right otherSignificand otherPower))

end NanScript.Binary64
