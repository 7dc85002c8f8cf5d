import NanScript.Machine
import NanScript.Text.Hash
import NanScript.Value.Operator

/-!
# Strings of a running program

A string value is the address of bytes that end at the first zero byte, in the program's data or in a block of the
heap. Nothing ever writes to them, so a string can be shared.
-/

namespace NanScript

namespace Machine

/-- The program's texts are above all blocks. -/
def dataStart : Nat := Heap.ceiling

def bytesUntilZero (byte : Nat → UInt8) : Nat → Nat → List UInt8
  | 0, _ => []
  | count + 1, offset => if byte offset = 0 then [] else byte offset :: bytesUntilZero byte count (offset + 1)

def text (machine : Machine) (address : Nat) : List UInt8 :=
  if dataStart ≤ address && address < dataStart + machine.data.size then
    let offset := address - dataStart
    bytesUntilZero (machine.data.getD · 0) (machine.data.size - offset) offset
  else
    match machine.heap.blockAt? address with
    | some block =>
      let offset := address - block.address
      bytesUntilZero block.byte (block.size.toNat - offset) offset
    | none => []

def textOf? (machine : Machine) (value : Value) : Option (List UInt8) :=
  match value.kind with
  | .str address => if address = 0 then none else some (machine.text address)
  | _ => none

def render (machine : Machine) (value : Value) : List UInt8 :=
  match value.plainText? with
  | some text => Text.utf8 text
  | none => (machine.textOf? value).getD []

/-- Equality: numbers by value, strings by their bytes, everything else by its word. -/
def equals (machine : Machine) (a b : Value) : Bool :=
  match a.kind, b.kind with
  | .str _, .str _ => machine.textOf? a == machine.textOf? b
  | _, _ => a.same b

/-- The words that hold some bytes, eight to a word. -/
def packBytes (bytes : List UInt8) : List UInt64 :=
  match bytes with
  | [] => []
  | first :: rest =>
    (first :: rest.take 7).foldr (fun byte word => word <<< 8 ||| byte.toUInt64) 0 :: packBytes (rest.drop 7)
termination_by bytes.length

end Machine

namespace Run

/-- Add a text to the program's data. It ends at its first zero byte. -/
def internText (bytes : List UInt8) : Run Nat :=
  modifyGet fun machine =>
    (Machine.dataStart + machine.data.size % Heap.ceiling,
      { machine with data := machine.data ++ bytes.toArray |>.push 0 })

def newString (bytes : Option (List UInt8)) : Run Value := do
  match bytes with
  | some bytes => return Value.ofAddress .str (← internText bytes)
  | none => return .null

def writeAll (address : Nat) : Nat → List UInt64 → Run Unit
  | _, [] => return
  | position, word :: rest => do
    write address position word
    writeAll address (position + 1) rest

/-- Two strings in one. A string without an address counts as empty. -/
def concat (a b : Value) : Run Value := do
  let machine ← get
  let bytes := (machine.textOf? a).getD [] ++ (machine.textOf? b).getD []
  let address ← allocate (bytes.length + 1).toUInt64
  writeAll address 0 (Machine.packBytes bytes)
  return Value.ofAddress .str address

def add (a b : Value) : Run Value :=
  match a.kind, b.kind with
  | .str _, .str _ => concat a b
  | _, _ => return a.add b

def mod (a b : Value) : Run Value := MonadExcept.ofExcept (a.mod b)

def eq (a b : Value) : Run Value := return Value.ofBool ((← get).equals a b)

def neq (a b : Value) : Run Value := return Value.ofBool !((← get).equals a b)

def print (value : Value) (closing : List UInt8) : Run Value := do
  modify fun machine => { machine with printed := machine.printed ++ (machine.render value ++ closing).toArray }
  return .null

end Run

end NanScript
