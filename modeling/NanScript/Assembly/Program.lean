import NanScript.Assembly.Body
import NanScript.Assembly.Printer
import NanScript.Interval.Liveness

/-!
# Code of a program

The entry sets up the runtime, tells it where the top-level variables are, computes their initial values in order and
calls the program's main function. Every function copies its arguments to the locations of its parameters, runs its
body, and leaves through one exit that restores the registers it saved.
-/

namespace NanScript

namespace Code

open Register

def parameter (position : Nat) (target : Place) : Code :=
  match Register.arguments[position]? with
  | some source => instructions [.move target source]
  | none => instructions [.move rax (.incoming (16 + 8 * (position - Register.arguments.length))), .move target rax]

/-- A function around its body. At its poll the arguments are still in their registers, and survive on the stack. -/
def function (name : String) (allocation : Allocation) (safe : Nat) (parameters body : Code) : Code :=
  [.function name] ++ instructions [.push rbp, .move rbp rsp]
    ++ poll safe (Register.arguments.map .push) (Register.arguments.reverse.map .pop)
    ++ instructions (allocation.saved.map .push ++ [.reserve allocation.frameSize])
    ++ parameters ++ body ++ instructions [.call "dyn_new_null" 0] ++ [.label .ret]
    ++ instructions ([.unwind (8 * allocation.saved.length)] ++ allocation.saved.reverse.map .pop ++ [.pop rbp, .ret])
    ++ [.blank]

def entry (globals : List String) (initialization : Code) (hasMain : Bool) : Code :=
  [.entry] ++ instructions [.push rbp, .move rbp rsp, .move rdi rbp, .call "aria_runtime_init" 1]
    ++ globals.flatMap (fun name => instructions [.globalAddress rdi name, .call "aria_register_global_root" 1])
    ++ initialization ++ instructions (if hasMain then [.call "aria_main" 0] else [])
    ++ instructions [.argumentZero, .call "exit" 1] ++ [.blank]

end Code

namespace Emit

/-- Copy parameters to their locations. What is not a variable has no location, but takes a position. -/
def parameters (around : Surroundings) (position : Nat) : List Tree → Emit Code
  | [] => return []
  | .var _ _ symbol :: rest => do
    let target ← location around symbol
    return Code.parameter position target.place ++ (← parameters around (position + 1) rest)
  | _ :: rest => parameters around (position + 1) rest

def allocated (outline : Outline) (allocation : Allocation) (name : String) (list : List Tree) (body : Tree) :
    Emit Code := do
  let around : Surroundings := { outline, allocation }
  let safe ← label
  let copies ← parameters around 0 list
  let body ← code around 0 body
  return Code.function name allocation safe copies body

def function (outline : Outline) : Tree → Emit Code
  | .funcDecl _ name _ list body => allocated outline (linearScan (liveIntervals list body)) name list body
  | _ => return []

def functions (outline : Outline) : List Tree → Emit Code
  | [] => return []
  | tree :: rest => do
    let first ← function outline tree
    return first ++ (← functions outline rest)

def declaration (outline : Outline) : Tree → Emit Code
  | .funcDecl note name sourceName list body => function outline (.funcDecl note name sourceName list body)
  | .classDecl _ _ methods => functions outline methods
  | _ => return []

def declarations (outline : Outline) : List Tree → Emit Code
  | [] => return []
  | tree :: rest => do
    let first ← declaration outline tree
    return first ++ (← declarations outline rest)

def initialization (outline : Outline) : List Tree → Emit Code
  | [] => return []
  | .varDecl _ name _ _ initial :: rest => do
    let value ← codeOrNull { outline, allocation := {} } 0 initial
    return value ++ Code.instructions [.move (.global name) Register.rax] ++ (← initialization outline rest)
  | _ :: rest => initialization outline rest

end Emit

def globalDeclarations (program : List Tree) : List String :=
  program.filterMap fun
    | .varDecl _ name _ _ _ => some name
    | _ => none

def undefinedFunctions (outline : Outline) (code : Code) : List String :=
  let outside name := !outline.definesFunction name && !runtimeExports.contains name
  ((code.filterMap Line.reference?).filter outside).eraseDups.mergeSort fun a b => decide (a ≤ b)

def assemble (program : List Tree) : Except CodegenError Assembly := do
  let outline ← Outline.ofProgram program
  let emitted : Emit Code := do
    let start ← Emit.initialization outline program
    return Code.entry (globalDeclarations program) start outline.hasMain ++ (← Emit.declarations outline program)
  let code ← emitted.run' 0
  return { undefined := undefinedFunctions outline code, globals := outline.globals, code }

def generate (program : List Tree) : Except CodegenError String := return (← assemble program).render

/-! ### Allocations by function -/

def functionDeclarations (program : List Tree) : List Tree :=
  program.flatMap fun
    | .classDecl _ _ methods => methods
    | tree => [tree]

def Tree.allocation? : Tree → Option (String × Allocation)
  | .funcDecl _ name _ parameters body => some (name, linearScan (liveIntervals parameters body))
  | _ => none

def allocations (program : List Tree) : List (String × Allocation) :=
  (functionDeclarations program).filterMap Tree.allocation?

end NanScript
