import NanScript.Probe
import NanScript.Text.Hash

/-!
# Interning

An interner numbers strings in the order in which they first come. Their bytes lie one behind the other in blocks, each
closed by a zero byte. A table of slots, searched by linear probing, leads from a string to its number. The table is
doubled before it would be more than three quarters full, so a search always meets an empty slot. The empty string is
there from the start, as number zero.
-/

namespace NanScript

inductive InternError where
  | oversized (length : Nat)
  | tooManyStrings (count : Nat)
  deriving DecidableEq, Repr

namespace Interner

def blockSize : Nat := 65536

/-- The number of bytes of the longest string that is taken: it has to fit a block with its closing zero. -/
def maxLength : Nat := blockSize - 1

def defaultCapacity : Nat := 1024

def countBound : Nat := 0xFFFFFFFF

end Interner

def InternError.message : InternError → String
  | oversized length =>
    s!"string of {length} bytes exceeds the interner block size of {Interner.maxLength} bytes"
  | tooManyStrings count => s!"interner exceeded capacity: {count} strings"

structure Interner.Entry where
  block : Nat
  offset : Nat
  length : Nat
  hash : UInt32
  deriving DecidableEq, Repr

structure Interner where
  blocks : Array ByteArray
  entries : Array Interner.Entry
  slots : Array (Option Nat)

namespace Interner

def lookup? (interner : Interner) (index : Nat) : Option String := do
  let entry ← interner.entries[index]?
  let block ← interner.blocks[entry.block]?
  String.fromUTF8? (block.extract entry.offset (entry.offset + entry.length))

def slot (interner : Interner) (position : Nat) : Option Nat := interner.slots.getD position none

/-- Whether the slot at `position` is empty or leads to `text`. -/
def stopsAt (interner : Interner) (text : String) (hash : UInt32) (position : Nat) : Bool :=
  match interner.slot position with
  | none => true
  | some index => (interner.entries[index]?.map (·.hash)) == some hash && interner.lookup? index == some text

def get? (interner : Interner) (text : String) : Option Nat := do
  let hash := Text.hash (Text.utf8 text)
  let position ← Probe.masked? interner.slots.size hash (interner.stopsAt text hash)
  interner.slot position

def fillSlot (slots : Array (Option Nat)) (hash : UInt32) (index : Nat) : Array (Option Nat) :=
  match Probe.masked? slots.size hash (fun position => (slots.getD position none).isNone) with
  | some position => slots.setIfInBounds position (some index)
  | none => slots

/-- The slots of a table of `size` slots that holds the entries with the given hashes. -/
def fillSlots (size : Nat) (hashes : List UInt32) : Array (Option Nat) :=
  (hashes.zipIdx).foldl (fun slots (hash, index) => fillSlot slots hash index) (Array.replicate size none)

def grow (interner : Interner) : Interner :=
  { interner with slots := fillSlots (2 * interner.slots.size) (interner.entries.map (·.hash)).toList }

/-- Whether one more entry would fill more than three quarters of the slots. -/
def crowded (interner : Interner) : Bool := interner.slots.size * 3 < (interner.entries.size + 1) * 4

def fitsLastBlock (interner : Interner) (length : Nat) : Bool :=
  match interner.blocks.back? with
  | some block => block.size + length + 1 ≤ blockSize
  | none => false

/-- Append a string to the last block, or to a new one if it does not fit there. -/
def store (interner : Interner) (text : String) (hash : UInt32) : Interner :=
  let bytes := text.toUTF8
  let blocks := if interner.fitsLastBlock bytes.size then interner.blocks else interner.blocks.push ByteArray.empty
  let last := blocks.size - 1
  let offset := (blocks.getD last ByteArray.empty).size
  { interner with
    blocks := blocks.modify last fun block => (block ++ bytes).push 0
    entries := interner.entries.push ⟨last, offset, bytes.size, hash⟩ }

def insert (interner : Interner) (text : String) : Interner :=
  let hash := Text.hash (Text.utf8 text)
  let roomy := if interner.crowded then interner.grow else interner
  let index := roomy.entries.size
  let stored := roomy.store text hash
  { stored with slots := fillSlot stored.slots hash index }

/-- The number of slots of a new table: the least power of two, from two on, that is not below the capacity. -/
def slotCount (capacity : Nat) : Nat := 1 <<< ((max capacity 2 - 1).log2 + 1)

def withCapacity (capacity : Nat) : Interner :=
  let hash := Text.hash []
  let empty : Interner := ⟨#[], #[], Array.replicate (slotCount capacity) none⟩
  let stored := empty.store "" hash
  { stored with slots := fillSlot stored.slots hash 0 }

def empty : Interner := withCapacity defaultCapacity

instance : Inhabited Interner := ⟨empty⟩

def intern (interner : Interner) (text : String) : Except InternError (Nat × Interner) :=
  match interner.get? text with
  | some index => .ok (index, interner)
  | none =>
    if maxLength < text.utf8ByteSize then .error (.oversized text.utf8ByteSize)
    else if countBound ≤ interner.entries.size then .error (.tooManyStrings interner.entries.size)
    else .ok (interner.entries.size, interner.insert text)

def size (interner : Interner) : Nat := interner.entries.size - 1

def isEmpty (interner : Interner) : Bool := interner.size == 0

def capacity (interner : Interner) : Nat := interner.slots.size

def summary (interner : Interner) : String :=
  s!"StringInterner \x7b len: {interner.size}, capacity: {interner.capacity}, blocks: {interner.blocks.size} \x7d"

end Interner

end NanScript
