import NanScript.Number.Arithmetic
import NanScript.Number.Decimal
import NanScript.Text.Hex

/-!
# Boxed values

Every value of a running program is one word of 64 bits. A double is its own pattern. The negative quiet NaNs from
`fff9` in their top 16 bits on stand for everything else: the top tells what it is, the lower 48 bits hold an integer
of 32 bits or an address. A computed NaN that would look like one of those is replaced by the plain one, so a word is
never ambiguous.
-/

namespace NanScript

structure Value where
  bits : UInt64
  deriving DecidableEq, Repr, Inhabited

/-- What is not a double. -/
inductive Tag where
  | null | boolFalse | boolTrue | int | str | object | list
  deriving DecidableEq, Repr, Inhabited

namespace Tag

def top : Tag → UInt64
  | null => 0xFFF9
  | boolFalse => 0xFFFA
  | boolTrue => 0xFFFB
  | int => 0xFFFC
  | str => 0xFFFD
  | object => 0xFFFE
  | list => 0xFFFF

def all : List Tag := [null, boolFalse, boolTrue, int, str, object, list]

def ofTop? (top : UInt64) : Option Tag := all.find? (·.top == top)

def bits (tag : Tag) : UInt64 := tag.top <<< 48

end Tag

inductive Kind where
  | float (bits : UInt64)
  | null
  | bool (value : Bool)
  | int (value : Int32)
  | str (address : Nat)
  | object (address : Nat)
  | list (address : Nat)
  deriving DecidableEq, Repr, Inhabited

namespace Value

/-! ### Boxing -/

def null : Value := ⟨Tag.null.bits⟩

def ofBool (value : Bool) : Value := ⟨(if value then Tag.boolTrue else Tag.boolFalse).bits⟩

def ofInt32 (value : Int32) : Value := ⟨Tag.int.bits ||| value.toUInt32.toUInt64⟩

/-- An integer of any size, reduced to 32 bits. -/
def ofInt (value : Int) : Value := ofInt32 (Int32.ofInt value)

def payloadMask : UInt64 := 0x0000FFFFFFFFFFFF

def ofAddress (tag : Tag) (address : Nat) : Value := ⟨tag.bits ||| (address.toUInt64 &&& payloadMask)⟩

def tag? (value : Value) : Option Tag := Tag.ofTop? (value.bits >>> 48)

/-- A double; one that would be taken for a tagged word becomes the plain NaN. -/
def ofFloat (bits : UInt64) : Value := if (tag? ⟨bits⟩).isSome then ⟨Binary64.nanBits⟩ else ⟨bits⟩

/-! ### Reading -/

def isFloat (value : Value) : Bool := value.tag?.isNone

def isNull (value : Value) : Bool := value == null

def payload (value : Value) : Nat := (value.bits &&& payloadMask).toNat

def int32 (value : Value) : Int32 := value.bits.toUInt32.toInt32

def kind (value : Value) : Kind :=
  match value.tag? with
  | none => .float value.bits
  | some .null => .null
  | some .boolFalse => .bool false
  | some .boolTrue => .bool true
  | some .int => .int value.int32
  | some .str => .str value.payload
  | some .object => .object value.payload
  | some .list => .list value.payload

def float? (value : Value) : Option UInt64 := if value.isFloat then some value.bits else none

def int? (value : Value) : Option Int32 := if value.tag? = some .int then some value.int32 else none

def number? (value : Value) : Option UInt64 :=
  match value.kind with
  | .float bits => some bits
  | .int number => some (Binary64.ofInt number.toInt)
  | _ => none

def heapAddress? (value : Value) : Option Nat :=
  match value.tag? with
  | some .str | some .object | some .list => some value.payload
  | _ => none

/-- Null, false and zero are false, all else is true. -/
def truthy (value : Value) : Bool :=
  match value.kind with
  | .null | .bool false => false
  | .float bits => Binary64.compare? bits 0 != some .eq
  | .int number => number != 0
  | _ => true

def summary (value : Value) : String :=
  match value.kind with
  | .float bits => s!"Float({Binary64.toShortest bits})"
  | .null => "Null"
  | .bool value => s!"Bool({value})"
  | .int number => s!"Int({number.toInt})"
  | .str address => s!"Str(0x{Text.hex address})"
  | .object address => s!"Object(0x{Text.hex address})"
  | .list address => s!"List(0x{Text.hex address})"

/-- What is printed for a value, except for a string, which has to be looked up. A string without an address prints
like null. -/
def plainText? (value : Value) : Option String :=
  match value.kind with
  | .float bits => some (Binary64.toFixed 6 bits)
  | .null => some "null"
  | .bool value => some (if value then "true" else "false")
  | .int number => some (toString number.toInt)
  | .str address => if address = 0 then some "null" else none
  | .object _ => some "<object>"
  | .list _ => some "<list>"

end Value

end NanScript
