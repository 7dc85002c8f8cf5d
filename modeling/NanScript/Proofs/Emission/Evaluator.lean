import NanScript.Outline
import NanScript.Proofs.Emission.Processor

/-!
# What a function means

An evaluator that walks over the tree. It keeps the values of the variables by name and knows of no registers, no stack and
no code. All computing is done by the runtime: an operator is a call, and so is a literal, since it makes a value.

Expressions always have a value. A loop may run forever, so the evaluation of a statement takes the number of rounds that any
loop may make, and says whether they were enough; what was called and stored until then is in the history either way.
-/

namespace NanScript

/-- The variables, and what has happened so far. -/
structure Memory where
  locals : Nat → Word
  globals : String → Word
  history : List Event

/-- How a statement ends. -/
inductive Flow where
  | normal
  | breaks
  | continues
  | returns (word : Word)
  deriving DecidableEq, Repr

/-- The runtime function of an operator. The two that may skip their right operand only test the left one. -/
def BinaryOp.function : BinaryOp → String
  | add => "dyn_add"
  | sub => "dyn_sub"
  | mul => "dyn_mul"
  | div => "dyn_div"
  | mod => "dyn_mod"
  | eq => "dyn_eq"
  | notEq => "dyn_neq"
  | lt => "dyn_lt"
  | ltEq => "dyn_le"
  | gt => "dyn_gt"
  | gtEq => "dyn_ge"
  | and | or => "dyn_truthy"

def UnaryOp.function : UnaryOp → String
  | neg => "dyn_neg"
  | not => "dyn_not"

namespace Memory

/-- Some computation on the memory that always ends. -/
abbrev Computation := StateM Memory

variable (world : World) (outline : Outline)

def call (target : Word) (arguments : List Word) : Computation Word := fun memory =>
  let history := memory.history ++ [.call target arguments]
  (world.result history, { memory with globals := world.globals history memory.globals, history })

def runtime (name : String) (arguments : List Word) : Computation Word := call world (.function name) arguments

def looked (memory : Memory) : Memory := { memory with history := memory.history ++ [.poll] }

/-- Stop for a collection if one is asked for. -/
def poll : Computation Unit := do
  modify looked
  if world.suspends (← get).history then
    let _ ← runtime world "gc_enter_safepoint" []

/-- A name that is no local is a top-level variable, or else a function. -/
def load (name : String) (symbol : Symbol) : Computation Word := do
  match symbol with
  | .localVar id => return (← get).locals id
  | _ => if symbol.isGlobal || outline.isGlobal name then return (← get).globals name else return .function name

def store (name : String) (symbol : Symbol) (word : Word) : Computation Unit :=
  modify fun memory =>
    match symbol with
    | .localVar id => { memory with locals := Function.update memory.locals id word }
    | _ =>
      { memory with
        globals := Function.update memory.globals name word
        history := memory.history ++ [.store name word] }

def truth (word : Word) : Computation Bool := do
  let answer ← runtime world "dyn_truthy" [word]
  return !answer.isZero

/-- Give an object the methods of its class. -/
def install (object : Word) : List Tree → Computation Unit
  | [] => return
  | .funcDecl _ name sourceName _ _ :: rest => do
    let _ ← runtime world "aria_obj_set" [object, .text (Text.utf8 sourceName), .function name]
    install object rest
  | _ :: rest => install object rest

end Memory

namespace Tree

open Memory

variable (world : World) (outline : Outline)

mutual

def value : Tree → Memory.Computation Word
  | int _ number => runtime world "dyn_new_int" [.ofInt number]
  | float _ bits => runtime world "dyn_new_float" [.bits bits]
  | bool _ flag => runtime world "dyn_new_bool" [.ofBool flag]
  | null _ => runtime world "dyn_new_null" []
  | str _ content => runtime world "dyn_new_str" [.text (Text.utf8 content)]
  | array _ items => do
    let list ← runtime world "list_new" []
    appendItems list items
    return list
  | var _ name symbol => load outline name symbol
  | assign _ name symbol source => do
    let word ← source.value
    store name symbol word
    return word
  | binary _ .and left right => do
    let first ← left.value
    if ← truth world first then right.value else return first
  | binary _ .or left right => do
    let first ← left.value
    if ← truth world first then return first else right.value
  | binary _ op left right => do
    let first ← left.value
    let second ← right.value
    runtime world op.function [first, second]
  | unary _ op operand => do
    let word ← operand.value
    runtime world op.function [word]
  | ternary _ condition positive negative => do
    let word ← condition.value
    if ← truth world word then positive.value else negative.value
  | call _ (get _ object name) arguments => do
    let words ← backward arguments
    let receiver ← object.value
    let method ← runtime world "aria_obj_get" [receiver, .text (Text.utf8 name)]
    Memory.call world method (receiver :: words)
  | call _ callee arguments => do
    let words ← backward arguments
    let target ← callee.value
    Memory.call world target words
  | get _ object name => do
    let word ← object.value
    runtime world "aria_obj_get" [word, .text (Text.utf8 name)]
  | set _ object name source => do
    let first ← object.value
    let second ← source.value
    runtime world "aria_obj_set" [first, .text (Text.utf8 name), second]
  | indexGet _ object index => do
    let first ← object.value
    let second ← index.value
    runtime world "list_get" [first, second]
  | indexSet _ object index source => do
    let first ← object.value
    let second ← index.value
    let third ← source.value
    runtime world "list_set" [first, second, third]
  | new _ className => do
    let object ← runtime world "aria_alloc_object" []
    install world object ((outline.methods? className).getD [])
    return object
  | _ => return default

/-- Append the values of items to a list. -/
def appendItems (list : Word) : List Tree → Memory.Computation Unit
  | [] => return
  | tree :: rest => do
    let word ← tree.value
    let _ ← runtime world "list_push" [list, word]
    appendItems list rest

/-- The values of arguments, computed from the last to the first. -/
def backward : List Tree → Memory.Computation (List Word)
  | [] => return []
  | tree :: rest => do
    let words ← backward rest
    let word ← tree.value
    return word :: words

end

/-- The value of an expression that may be missing. -/
def valueOrNull : Option Tree → Memory.Computation Word
  | some tree => tree.value world outline
  | none => runtime world "dyn_new_null" []

/-- Compute an expression, if there is one, for what it does. -/
def perform : Option Tree → Memory.Computation Unit
  | some tree => do let _ ← tree.value world outline
  | none => return

def test (condition : Tree) : Memory.Computation Bool := do
  let word ← condition.value world outline
  truth world word

/-! ### Statements -/

/-- One round of a loop, which says how the loop ends if it does. -/
def round (condition : Tree) (body : OptionT Memory.Computation Flow) (step : Option Tree) :
    OptionT Memory.Computation (Option Flow) := do
  poll world
  if ← condition.test world outline then
    match ← body with
    | .breaks => return some .normal
    | .returns word => return some (.returns word)
    | .normal | .continues =>
      perform world outline step
      return none
  else return some .normal

theorem round_eq (condition : Tree) (body : OptionT Memory.Computation Flow) (step : Option Tree) (memory : Memory) :
    round world outline condition body step memory =
      (if (condition.test world outline (Memory.poll world memory).2).1 then
        (do
          match ← body with
          | .breaks => return some .normal
          | .returns word => return some (.returns word)
          | .normal | .continues =>
            perform world outline step
            return none : OptionT Memory.Computation (Option Flow))
      else return some .normal) (condition.test world outline (Memory.poll world memory).2).2 := rfl

/-- Repeat a round until it says how the loop ends. -/
def rounds (round : OptionT Memory.Computation (Option Flow)) : Nat → OptionT Memory.Computation Flow
  | 0 => failure
  | fuel + 1 => do
    match ← round with
    | some flow => return flow
    | none => rounds round fuel

mutual

/-- Execute a statement whose loops make no more than `fuel` rounds each. -/
def execute (fuel : Nat) : Tree → OptionT Memory.Computation Flow
  | varDecl _ name symbol _ initial => do
    let word ← valueOrNull world outline initial
    store name symbol word
    return .normal
  | block _ statements => executeAll fuel statements
  | ifElse _ condition positive negative => do
    if ← condition.test world outline then positive.execute fuel else executeOption fuel negative
  | whileLoop _ condition body step => rounds (round world outline condition (body.execute fuel) step) fuel
  | ret _ value => do
    let word ← valueOrNull world outline value
    return .returns word
  | breakLoop _ => return .breaks
  | continueLoop _ => return .continues
  | tree => do
    let _ ← tree.value world outline
    return .normal

/-- Execute statements up to the first that does not end normally. -/
def executeAll (fuel : Nat) : List Tree → OptionT Memory.Computation Flow
  | [] => return .normal
  | tree :: rest => do
    match ← tree.execute fuel with
    | .normal => executeAll fuel rest
    | flow => return flow

def executeOption (fuel : Nat) : Option Tree → OptionT Memory.Computation Flow
  | none => return .normal
  | some tree => tree.execute fuel

end

end Tree

/-- Give the parameters from a position on their arguments. -/
def Memory.receive (arguments : Nat → Word) (position : Nat) : List Tree → Memory.Computation Unit
  | [] => return
  | .var _ name symbol :: rest => do
    store name symbol (arguments position)
    receive arguments (position + 1) rest
  | _ :: rest => receive arguments (position + 1) rest

/-- What a function returns. It is null if the body comes to its end. -/
def evaluate (world : World) (outline : Outline) (fuel : Nat) (parameters : List Tree) (body : Tree)
    (arguments : Nat → Word) : OptionT Memory.Computation Word := do
  Memory.poll world
  Memory.receive arguments 0 parameters
  match ← body.execute world outline fuel with
  | .returns word => return word
  | _ => Memory.runtime world "dyn_new_null" []

end NanScript
