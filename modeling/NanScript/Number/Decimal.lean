import NanScript.Number.Binary64

/-!
# Decimal texts of doubles

Two ways to write a double in decimal, both from its exact value: with a fixed number of places, and with the fewest
digits that no other double shares. Neither uses an exponent.
-/

namespace NanScript.Binary64

/-- The sign, and the texts of the values that have no digits. -/
def frame (bits : UInt64) (digits : Nat → Nat → String) : String :=
  match decode bits with
  | nan => "NaN"
  | infinite negative => if negative then "-inf" else "inf"
  | finite negative significand power => (if negative then "-" else "") ++ digits significand power

def withPoint (number places : Nat) : String :=
  let whole := toString (number / Nat.pow 10 places)
  if places == 0 then whole
  else
    let digits := toString (number % Nat.pow 10 places)
    whole ++ "." ++ String.ofList (List.replicate (places - digits.length) '0') ++ digits

/-- A double with `places` decimal places, to the nearest, a half to the even last digit. -/
def toFixed (places : Nat) (bits : UInt64) : String :=
  frame bits fun significand power =>
    withPoint (roundDiv (magnitude significand power * Nat.pow 10 places) unitsPerOne) places

/-! ### The fewest digits

The numbers that round to a given double form an interval around it, closed if its significand is even. Everything is
measured in quarters of a unit, where the ends of the interval are whole numbers too. On the grid of the multiples of
`10 ^ grid` the double has two neighbours; the coarsest grid with a neighbour in the interval gives the digits. -/

/-- The numbers that round to a double, in quarters of a unit: it stands at `centre`, and the interval reaches `below`
and `above` it. -/
structure Interval where
  centre : Nat
  below : Nat
  above : Nat
  closed : Bool

/-- The gap to the next smaller double is half as wide at a power of two. -/
def roundingInterval (significand power : Nat) : Interval where
  centre := magnitude (4 * significand) power
  below := magnitude (if significand == leadingBit && 0 < power then 1 else 2) power
  above := magnitude 2 power
  closed := significand % 2 == 0

/-- The multiple of `10 ^ grid` that is written for the double in the middle of the interval: the nearer of its two
neighbours, if both lie in the interval, and the upper one at equal distances. -/
def Interval.onGrid? (interval : Interval) (grid : Int) : Option Nat :=
  let quarters := 4 * unitsPerOne * Nat.pow 10 grid.toNat
  let scale := Nat.pow 10 (-grid).toNat
  let lower := interval.centre * scale / quarters
  let left := interval.centre * scale % quarters
  let right := quarters - left
  let within (distance reach : Nat) : Bool := if interval.closed then distance ≤ reach else distance < reach
  let down := within left (interval.below * scale)
  let up := within right (interval.above * scale)
  if up && (!down || right ≤ left) then some (lower + 1)
  else if down then some lower
  else none

def leadingExponent (significand power : Nat) : Int :=
  (toString (magnitude significand power * Nat.pow 10 340 / unitsPerOne)).length - 341

/-- The coarsest grid, and the multiple of it, from `grid` downward. Seventeen digits always suffice, so the search
has a bound. It begins above the first digit, where a run of nines may round up to. -/
def Interval.coarsest (interval : Interval) : Nat → Int → Nat × Int
  | 0, grid => (((interval.onGrid? grid).getD 0), grid)
  | steps + 1, grid =>
    match interval.onGrid? grid with
    | some multiple => (multiple, grid)
    | none => interval.coarsest steps (grid - 1)

def positional (multiple : Nat) (grid : Int) : String :=
  if 0 ≤ grid then toString (multiple * Nat.pow 10 grid.toNat)
  else withPoint multiple (-grid).toNat

/-- A double with the fewest digits that no other double shares. -/
def toShortest (bits : UInt64) : String :=
  frame bits fun significand power =>
    if significand == 0 then "0"
    else
      let (multiple, grid) := (roundingInterval significand power).coarsest 18 (leadingExponent significand power + 1)
      positional multiple grid

/-! ### Reading -/

def digitsValue (radix : Nat) (digits : List Char) : Nat :=
  digits.foldl (fun value digit => value * radix + digitValue digit) 0
where
  digitValue (digit : Char) : Nat :=
    if digit.isDigit then digit.toNat - '0'.toNat
    else if digit.isLower then digit.toNat - 'a'.toNat + 10
    else digit.toNat - 'A'.toNat + 10

/-- The bit pattern of the double nearest to a number written as digits, a point and digits. -/
def ofDecimal (text : List Char) : UInt64 :=
  let whole := text.takeWhile Char.isDigit
  let places := text.drop (whole.length + 1)
  ofRatio (digitsValue 10 (whole ++ places)) (Nat.pow 10 places.length)

end NanScript.Binary64
