/-!
# A filter of addresses

Most words that a collection looks at are no addresses of blocks. The filter answers "surely not" for most of them with
one hash and one bit. It may say "perhaps" of an address that was never put in, but never "surely not" of one that was.
-/

namespace NanScript

/-- A set of bits, one for each slot that some address fell into. -/
structure Filter where
  bits : Nat := 0
  deriving DecidableEq, Repr, Inhabited

namespace Filter

def size : Nat := 65536

/-- The slot of an address: its bits are mixed until each of them depends on all of them. -/
def slot (address : Nat) : Nat :=
  let start := address.toUInt64
  let once := (start ^^^ (start >>> 30)) * 0xbf58476d1ce4e5b9
  let twice := (once ^^^ (once >>> 27)) * 0x94d049bb133111eb
  (twice ^^^ (twice >>> 31)).toNat % size

def insert (filter : Filter) (address : Nat) : Filter := ⟨filter.bits ||| 1 <<< slot address⟩

/-- False only if the address was never inserted. -/
def mayContain (filter : Filter) (address : Nat) : Bool := filter.bits.testBit (slot address)

def ofList (addresses : List Nat) : Filter := addresses.foldl insert {}

theorem mayContain_insert (filter : Filter) (address other : Nat) :
    (filter.insert address).mayContain other = (filter.mayContain other || slot address == slot other) := by
  simp only [mayContain, insert, Nat.testBit_or, Nat.one_shiftLeft, Nat.testBit_two_pow]
  rfl

@[simp] theorem mayContain_insert_self (filter : Filter) (address : Nat) :
    (filter.insert address).mayContain address = true := by
  simp [mayContain_insert]

end Filter

end NanScript
