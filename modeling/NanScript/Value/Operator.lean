import NanScript.RuntimeError
import NanScript.Value

/-!
# Operators on values

Two integers make an integer, modulo 2^32; an integer and a double make a double. Division always makes a double. What
an operator has no meaning for makes null. Strings are added and compared by their bytes, which are in memory: those
two cases are with the memory.
-/

namespace NanScript.Value

inductive Operands where
  | ints (left right : Int32)
  | floats (left right : UInt64)

def operands? (a b : Value) : Option Operands :=
  match a.kind, b.kind with
  | .int left, .int right => some (.ints left right)
  | _, _ => do return .floats (← a.number?) (← b.number?)

def arithmetic (onInts : Int32 → Int32 → Int32) (onFloats : UInt64 → UInt64 → UInt64) (a b : Value) : Value :=
  match operands? a b with
  | some (.ints left right) => ofInt32 (onInts left right)
  | some (.floats left right) => ofFloat (onFloats left right)
  | none => null

def add : Value → Value → Value := arithmetic (· + ·) Binary64.add

def sub : Value → Value → Value := arithmetic (· - ·) Binary64.sub

def mul : Value → Value → Value := arithmetic (· * ·) Binary64.mul

def div (a b : Value) : Value :=
  match a.number?, b.number? with
  | some left, some right => ofFloat (Binary64.div left right)
  | _, _ => null

def mod (a b : Value) : Except RuntimeError Value :=
  match operands? a b with
  | some (.ints left right) => if right = 0 then .error .divisionByZero else .ok (ofInt32 (left % right))
  | some (.floats left right) => .ok (ofFloat (Binary64.remainder left right))
  | none => .ok null

def neg (a : Value) : Value :=
  match a.kind with
  | .int number => ofInt32 (-number)
  | .float bits => ofFloat (Binary64.negate bits)
  | _ => null

def not (a : Value) : Value := ofBool !a.truthy

/-- Equality of all but strings: numbers by value, everything else by its word. -/
def same (a b : Value) : Bool :=
  match a.number?, b.number? with
  | some left, some right => Binary64.compare? left right == some .eq
  | _, _ => a == b

/-- The order of two numbers. Nothing else has one. -/
def compare? (a b : Value) : Option Ordering := do Binary64.compare? (← a.number?) (← b.number?)

/-- Whether two values are in order, and the order is one of those that `holds` accepts. -/
def ordered (holds : Ordering → Bool) (a b : Value) : Value := ofBool ((compare? a b).any holds)

def lt : Value → Value → Value := ordered Ordering.isLT

def le : Value → Value → Value := ordered Ordering.isLE

def gt : Value → Value → Value := ordered Ordering.isGT

def ge : Value → Value → Value := ordered Ordering.isGE

end NanScript.Value
