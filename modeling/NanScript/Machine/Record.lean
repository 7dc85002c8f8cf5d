import NanScript.Machine.Sequence
import NanScript.Machine.Text
import NanScript.Probe

/-!
# Objects

An object maps the bytes of texts to values. It has a header like a list's, and a table of entries in a block of its
own: each entry is the address of a key and a value, an empty one has no key. Keys are sought by linear probing from
the slot of their hash. Before every insertion the table is doubled if one more entry would fill more than three
quarters of it, even if the key turns out to be there already.
-/

namespace NanScript

namespace Run

def countWord : Nat := lengthWord

def allocateEntries (capacity : Nat) : Run Nat := allocate (capacity * 16).toUInt64

def objectNew : Run Value := do
  let header ← allocate headerSize
  let entries ← allocateEntries initialCapacity
  write header itemsWord entries.toUInt64
  write header capacityWord initialCapacity.toUInt64
  return Value.ofAddress .object header

def objectHeader? (value : Value) : Option Nat :=
  match value.kind with
  | .object address => if address = 0 then none else some address
  | _ => none

def objectCount (header : Nat) : Run Nat := return (← read header countWord).toNat

def objectCapacity (header : Nat) : Run Nat := return (← read header capacityWord).toNat

end Run

/-- The address of the key in a slot of a table, zero if the slot is empty. -/
def Machine.keyAt (machine : Machine) (entries slot : Nat) : Nat := (machine.heap.read entries (2 * slot)).toNat

/-- The slot for a key in a table: the one that holds it, or else the first empty one. -/
def Machine.entrySlot? (machine : Machine) (entries capacity : Nat) (key : List UInt8) : Option Nat :=
  Probe.find? capacity (Text.hash key) fun slot =>
    let address := machine.keyAt entries slot
    address = 0 || machine.text address == key

namespace Run

def objectFind (header : Nat) (key : List UInt8) : Run Value := do
  let entries := (← read header itemsWord).toNat
  let capacity ← objectCapacity header
  let machine ← get
  match machine.entrySlot? entries capacity key with
  | some slot => if machine.keyAt entries slot = 0 then return .null else return ⟨← read entries (2 * slot + 1)⟩
  | none => return .null

def objectInsert (header key : Nat) (value : UInt64) : Run Unit := do
  let entries := (← read header itemsWord).toNat
  let capacity ← objectCapacity header
  let machine ← get
  match machine.entrySlot? entries capacity (machine.text key) with
  | some slot =>
    if machine.keyAt entries slot = 0 then
      write entries (2 * slot) key.toUInt64
      write header countWord ((← objectCount header) + 1).toUInt64
    write entries (2 * slot + 1) value
  | none => return

def objectRefill (header old : Nat) : List Nat → Run Unit
  | [] => return
  | slot :: rest => do
    let key := (← read old (2 * slot)).toNat
    if key ≠ 0 then objectInsert header key (← read old (2 * slot + 1))
    objectRefill header old rest

def objectGrow (header : Nat) : Run Unit := do
  let old := (← read header itemsWord).toNat
  let capacity ← objectCapacity header
  let entries ← allocateEntries (capacity * 2)
  write header itemsWord entries.toUInt64
  write header capacityWord (capacity * 2).toUInt64
  write header countWord 0
  objectRefill header old (List.range capacity)

/-- The value under a key, null if there is none. No key is no entry. -/
def objectGet (object : Value) (key : Option Nat) : Run Value := do
  match objectHeader? object with
  | none => throw .getOnNull
  | some header =>
    match key with
    | some key => objectFind header ((← get).text key)
    | none => return .null

/-- Put a value under a key; the result is the value. Without a key nothing is done. -/
def objectSet (object : Value) (key : Option Nat) (value : Value) : Run Value := do
  match objectHeader? object with
  | none => throw .setOnNull
  | some header =>
    match key with
    | some key =>
      if (← objectCapacity header) * 3 < ((← objectCount header) + 1) * 4 then objectGrow header
      objectInsert header key value.bits
      return value
    | none => return value

end Run

end NanScript
