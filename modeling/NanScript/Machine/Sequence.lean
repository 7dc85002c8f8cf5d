import NanScript.Machine

/-!
# Lists

A list is a header of four words: a lock, the address of its items, how many there is room for, and how many there
are. Items are the words of a block of their own. When they are full they move to a block twice as large; the old one
is left to the next collection.
-/

namespace NanScript.Run

/-- The header of a list: where each word stands. -/
def itemsWord : Nat := 1
def capacityWord : Nat := 2
def lengthWord : Nat := 3

def headerSize : UInt64 := 32

def initialCapacity : Nat := 8

def listHeader? (value : Value) : Option Nat :=
  match value.kind with
  | .list address => if address = 0 then none else some address
  | _ => none

def listHeader (value : Value) : Run Nat :=
  match listHeader? value with
  | some header => return header
  | none => throw .notAList

/-- An index: integers only. -/
def indexOf (value : Value) : Run Int :=
  match value.int? with
  | some number => return number.toInt
  | none => throw .nonIntegerIndex

def allocateItems (capacity : Nat) : Run Nat := allocate (capacity * 8).toUInt64

def listNew : Run Value := do
  let header ← allocate headerSize
  let items ← allocateItems initialCapacity
  write header itemsWord items.toUInt64
  write header capacityWord initialCapacity.toUInt64
  return Value.ofAddress .list header

def listLength (header : Nat) : Run Nat := return (← read header lengthWord).toNat

def listCapacity (header : Nat) : Run Nat := return (← read header capacityWord).toNat

def copyWords (source target : Nat) : Nat → Run Unit
  | 0 => return
  | count + 1 => do
    copyWords source target count
    write target count (← read source count)

def listReserve (header : Nat) : Run Unit := do
  let length ← listLength header
  let capacity ← listCapacity header
  if length = capacity then
    let larger := max (capacity * 2) initialCapacity
    let items ← allocateItems larger
    copyWords (← read header itemsWord).toNat items length
    write header itemsWord items.toUInt64
    write header capacityWord larger.toUInt64

def listPush (list item : Value) : Run Unit := do
  let header ← listHeader list
  listReserve header
  let length ← listLength header
  write (← read header itemsWord).toNat length item.bits
  write header lengthWord (length + 1).toUInt64

def listPosition (header : Nat) (index : Int) : Run Nat := do
  let length ← listLength header
  if 0 ≤ index && index < length then return index.toNat else throw (.indexOutOfBounds index length)

def listGet (list index : Value) : Run Value := do
  let header ← listHeader list
  let position ← listPosition header (← indexOf index)
  return ⟨← read (← read header itemsWord).toNat position⟩

def listSet (list index value : Value) : Run Value := do
  let header ← listHeader list
  let position ← listPosition header (← indexOf index)
  write (← read header itemsWord).toNat position value.bits
  return value

/-- The length of a list as an integer of 32 bits, the greatest if it is longer. -/
def listLen (list : Value) : Run Value := do
  let length ← listLength (← listHeader list)
  return Value.ofInt (min length 2147483647)

def listItems (list : Value) : Run (List Value) := do
  let header ← listHeader list
  let items := (← read header itemsWord).toNat
  (List.range (← listLength header)).mapM fun position => return ⟨← read items position⟩

end NanScript.Run
