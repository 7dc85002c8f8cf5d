import NanScript.Assembly
import NanScript.Tree

/-!
# Shapes of code

Each language construct is a way to put the code of its parts together. The value of an expression is left in `rax`;
operands wait on the stack while their neighbours are computed. The machine wants the stack pointer at a multiple of
sixteen at each call, so every shape that calls takes the depth, the number of words that wait on the stack, and pads
an odd one.
-/

namespace NanScript.Code

open Register

def instructions (list : List Instruction) : Code := list.map .instruction

/-- Call a runtime function, whose arguments are in their registers, with the stack aligned. -/
def runtime (depth : Nat) (name : String) (arguments : Nat) : Code :=
  if depth % 2 == 1 then instructions [.reserve 8, .call name arguments, .release 8]
  else instructions [.call name arguments]

def truth (depth : Nat) : Code :=
  instructions [.move rdi rax] ++ runtime depth "dyn_truthy" 1 ++ instructions [.testResult]

def text (skip data : Nat) (content : String) : Code :=
  [.instruction (.jump .always (.textEnd skip)), .text data (Text.utf8 content), .label (.textEnd skip)]

def poll (number : Nat) (before after : List Instruction) : Code :=
  instructions ([.pollRequest, .jump .equal (.safe number)] ++ before ++ [.call "gc_enter_safepoint" 0] ++ after)
    ++ [.label (.safe number)]

/-! ### Expressions -/

def item (depth : Nat) (value : Code) : Code :=
  [instructions [.push rax], value, instructions [.move rsi rax, .move rdi .top], runtime (depth + 1) "list_push" 2,
    instructions [.pop rax]].flatten

def unaryOperator : UnaryOp → String
  | .neg => "dyn_neg"
  | .not => "dyn_not"

def unary (depth : Nat) (op : UnaryOp) (operand : Code) : Code :=
  [operand, instructions [.move rdi rax], runtime depth (unaryOperator op) 1].flatten

def operator : BinaryOp → String
  | .add => "dyn_add"
  | .sub => "dyn_sub"
  | .mul => "dyn_mul"
  | .div => "dyn_div"
  | .mod => "dyn_mod"
  | .eq => "dyn_eq"
  | .notEq => "dyn_neq"
  | .lt => "dyn_lt"
  | .ltEq => "dyn_le"
  | .gt => "dyn_gt"
  | .gtEq => "dyn_ge"
  | .and | .or => "dyn_truthy"

def binary (depth : Nat) (op : BinaryOp) (left right : Code) : Code :=
  [left, instructions [.push rax], right, instructions [.move rsi rax, .pop rdi], runtime depth (operator op) 2].flatten

/-- The value is that of the operand that decides. -/
def shortCircuit (depth number : Nat) (skip : Condition) (left right : Code) : Code :=
  [left, instructions [.push rax], truth (depth + 1), instructions [.pop rax, .jump skip (.shortEnd number)], right,
    [.label (.shortEnd number)]].flatten

def ternary (depth other finish : Nat) (condition positive negative : Code) : Code :=
  [condition, truth depth, instructions [.jump .zero (.ternary other)],
    positive, instructions [.jump .always (.ternaryEnd finish)],
    [.label (.ternary other)], negative, [.label (.ternaryEnd finish)]].flatten

def get (depth key : Nat) (object : Code) : Code :=
  [object, instructions [.move rdi rax, .textAddress rsi key], runtime depth "aria_obj_get" 2].flatten

def set (depth key : Nat) (object value : Code) : Code :=
  [object, instructions [.push rax], value, instructions [.move rdx rax, .pop rdi, .textAddress rsi key],
    runtime depth "aria_obj_set" 3].flatten

def indexGet (depth : Nat) (object index : Code) : Code :=
  [object, instructions [.push rax], index, instructions [.move rsi rax, .pop rdi], runtime depth "list_get" 2].flatten

def indexSet (depth : Nat) (object index value : Code) : Code :=
  [object, instructions [.push rax], index, instructions [.push rax], value,
    instructions [.move rdx rax, .pop rsi, .pop rdi], runtime depth "list_set" 3].flatten

def method (depth key : Nat) (name : String) : Code :=
  instructions [.move rdi .top, .textAddress rsi key, .functionAddress rdx name] ++ runtime depth "aria_obj_set" 3

def new (depth : Nat) (methods : Code) : Code :=
  [runtime depth "aria_alloc_object" 0, instructions [.push rax], methods, instructions [.pop rax]].flatten

/-! ### Calls -/

def stackArguments (total : Nat) : Nat := total - Register.arguments.length

/-- One word of padding if the words that wait and the arguments that stay would leave the stack unaligned. -/
def padding (depth total : Nat) : Nat := (depth + stackArguments total) % 2

/-- The address of a method, with its receiver pushed as the first argument. -/
def receiver (depth key : Nat) (object : Code) : Code :=
  [object, instructions [.push rax, .move rdi rax, .textAddress rsi key], runtime (depth + 1) "aria_obj_get" 2,
    instructions [.move r10 rax]].flatten

def reserved (pad : Nat) : Code := instructions (if pad == 1 then [.reserve 8] else [])

def released (words : Nat) : Code := instructions (if words > 0 then [.release (8 * words)] else [])

/-- A call: arguments are pushed from the last to the first, then the first six go to their registers. -/
def call (depth total : Nat) (arguments callee : Code) (jump : Nat → Instruction) : Code :=
  let pad := padding depth total
  [reserved pad, arguments, callee, instructions ((Register.arguments.take total).map .pop), instructions [jump total],
    released (stackArguments total + pad)].flatten

/-! ### Statements -/

def ifElse (depth other finish : Nat) (condition positive negative : Code) : Code :=
  [condition, truth depth, instructions [.jump .zero (.otherwise other)],
    positive, instructions [.jump .always (.finish finish)],
    [.label (.otherwise other)], negative, [.label (.finish finish)]].flatten

/-- The step stands behind the body, where `continue` jumps to. -/
def whileLoop (depth again next finish safe : Nat) (condition body step : Code) : Code :=
  [[.label (.again again)], poll safe [] [], condition, truth depth, instructions [.jump .zero (.finish finish)],
    body, [.label (.next next)], step, instructions [.jump .always (.again again)], [.label (.finish finish)]].flatten

end NanScript.Code
