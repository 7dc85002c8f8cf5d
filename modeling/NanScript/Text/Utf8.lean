/-!
# Reading bytes as text

Bytes that a program prints need not be text. Where they are not, each longest run that could have begun a character
is replaced by one replacement character.
-/

namespace NanScript.Text

def replacement : Char := '�'

/-- The second bytes that may follow a first byte, and how many bytes follow that one; for a first byte of a character
of several bytes. -/
def sequence? (first : UInt8) : Option (UInt8 × UInt8 × Nat) :=
  if 0xC2 ≤ first && first ≤ 0xDF then some (0x80, 0xBF, 0)
  else if first = 0xE0 then some (0xA0, 0xBF, 1)
  else if first = 0xED then some (0x80, 0x9F, 1)
  else if 0xE1 ≤ first && first ≤ 0xEF then some (0x80, 0xBF, 1)
  else if first = 0xF0 then some (0x90, 0xBF, 2)
  else if first = 0xF4 then some (0x80, 0x8F, 2)
  else if 0xF1 ≤ first && first ≤ 0xF3 then some (0x80, 0xBF, 2)
  else none

def isContinuation (byte : UInt8) : Bool := 0x80 ≤ byte && byte ≤ 0xBF

def leadingBits (first : UInt8) (more : Nat) : Nat :=
  if more = 0 then first.toNat % 32 else if more = 1 then first.toNat % 16 else first.toNat % 8

/-- The bytes behind the first one that belong to its character, and whether it is whole. -/
def following (first : UInt8) (rest : List UInt8) : List UInt8 × Bool :=
  match sequence? first, rest with
  | some (low, high, more), second :: others =>
    if low ≤ second && second ≤ high then
      let tail := (others.take more).takeWhile isContinuation
      (second :: tail, tail.length == more)
    else ([], false)
  | _, _ => ([], false)

def decode (bytes : List UInt8) : List Char :=
  match bytes with
  | [] => []
  | first :: rest =>
    if first < 0x80 then Char.ofNat first.toNat :: decode rest
    else
      let (tail, whole) := following first rest
      let code := tail.foldl (fun code byte => code * 64 + byte.toNat % 64) (leadingBits first (tail.length - 1))
      (if whole then Char.ofNat code else replacement) :: decode (rest.drop tail.length)
termination_by bytes.length

def ofBytes (bytes : List UInt8) : String := String.ofList (decode bytes)

end NanScript.Text
