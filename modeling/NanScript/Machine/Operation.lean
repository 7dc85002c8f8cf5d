import NanScript.Machine.Operator
import NanScript.Machine.Record

/-!
# Operations

What a program has the runtime do with its variables. Each operation has a value as its result, and most of them put it into a
variable.
-/

namespace NanScript

/-- Numbers are variables: first the target, if there is one, then the sources. -/
inductive Operation where
  | int (target : Nat) (value : Int)
  | float (target : Nat) (bits : UInt64)
  | bool (target : Nat) (value : Int)
  | null (target : Nat)
  | str (target : Nat) (text : Option String)
  | move (target source : Nat)
  | binary (operator : RuntimeOperator) (target left right : Nat)
  | neg (target source : Nat)
  | not (target source : Nat)
  | truthy (source : Nat)
  | print (source : Nat) (closing : List UInt8)
  | list (target : Nat)
  | push (list item : Nat)
  | get (target list index : Nat)
  | set (target list index value : Nat)
  | length (target list : Nat)
  | object (target : Nat)
  | objectGet (target object : Nat) (key : Option String)
  | objectSet (target object : Nat) (key : Option String) (value : Nat)
  deriving Repr, Inhabited

namespace Run

def into (target : Nat) (action : Run Value) : Run Value := do
  let value ← action
  store target value
  return value

def internKey : Option String → Run (Option Nat)
  | some text => return some (← internText (Text.utf8 text))
  | none => return none

end Run

namespace Operation

open Run

def perform : Operation → Run Value
  | int target value => into target (return .ofInt value)
  | float target bits => into target (return .ofFloat bits)
  | bool target value => into target (return .ofBool (value != 0))
  | null target => into target (return .null)
  | str target text => into target (newString (text.map Text.utf8))
  | move target source => into target (load source)
  | binary operator target left right => into target do operator.apply (← load left) (← load right)
  | neg target source => into target (return (← load source).neg)
  | not target source => into target (return (← load source).not)
  | truthy source => return .ofBool (← load source).truthy
  | print source closing => do Run.print (← load source) closing
  | list target => into target listNew
  | push source item => do
    listPush (← load source) (← load item)
    return .null
  | get target source index => into target do listGet (← load source) (← load index)
  | set target source index value => into target do listSet (← load source) (← load index) (← load value)
  | length target source => into target do listLen (← load source)
  | object target => into target objectNew
  | objectGet target source key => into target do
    let key ← internKey key
    Run.objectGet (← load source) key
  | objectSet target source key value => into target do
    let key ← internKey key
    Run.objectSet (← load source) key (← load value)

end Operation

end NanScript
