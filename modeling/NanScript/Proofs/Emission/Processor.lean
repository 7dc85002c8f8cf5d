import Mathlib.Logic.Function.Basic
import NanScript.Assembly

/-!
# A processor

What emitted code does when it runs. The processor has registers, a stack of words, a flag, and the words of the top-level
variables. It does not know what a called function does: a `World` says what each call returns and what it leaves in the
top-level variables, and both may depend on everything that was called and stored before. What the calling convention leaves
open is up to a `Noise`: behind a call, the registers that a caller has to save, the flag, the arguments on the stack and all
that lies above the stack hold anything.

The processor stops where a real one would go astray: at a call with an unaligned stack, at a text in its way, at a word that
is not on the stack, at a label that is not there. It also stops at `ret`, where the function is over.
-/

namespace NanScript

/-- A word of a register, of the stack or of a top-level variable. -/
inductive Word where
  | bits (bits : UInt64)
  /-- The address of a text. -/
  | text (bytes : List UInt8)
  /-- The address of a function. -/
  | function (name : String)
  /-- The address of a top-level variable. -/
  | global (name : String)
  /-- The address of the stack when it has that many words. -/
  | height (words : Nat)
  deriving DecidableEq, Repr, Inhabited

namespace Word

def ofInt (value : Int) : Word := .bits ⟨BitVec.ofInt 64 value⟩

def ofBool (value : Bool) : Word := .bits (if value then 1 else 0)

/-- No address is zero. -/
def isZero : Word → Bool
  | .bits word => word == 0
  | _ => false

end Word

/-- What can be seen of a run from outside. -/
inductive Event where
  | call (target : Word) (arguments : List Word)
  | store (name : String) (value : Word)
  /-- A look whether a collection is asked for. -/
  | poll
  deriving DecidableEq, Repr

/-- The world that a function calls into. Histories end with the call or the look in question. -/
structure World where
  result : List Event → Word
  /-- The top-level variables behind a call, from those before it. -/
  globals : List Event → (String → Word) → String → Word
  /-- Whether a collection is asked for. -/
  suspends : List Event → Bool

/-- What nobody promises, at each tick of the clock. -/
structure Noise where
  registers : Nat → Register → Word
  stack : Nat → Nat → Word
  zero : Nat → Bool

/-- The registers that a caller has to save. -/
def Register.scratch : List Register := [.rax, .rdi, .rsi, .rdx, .rcx, .r8, .r9, .r10]

namespace Code

/-- What follows a label. -/
def seek (target : Label) : Code → Option Code
  | [] => none
  | .label label :: rest => if label = target then some rest else seek target rest
  | _ :: rest => seek target rest

def lookup (number : Nat) : Code → Option (List UInt8)
  | [] => none
  | .text other bytes :: rest => if other = number then some bytes else lookup number rest
  | _ :: rest => lookup number rest

end Code

structure Processor where
  /-- The code that is still to run. -/
  rest : Code
  registers : Register → Word
  /-- How many words the stack has. -/
  height : Nat
  stack : Nat → Word
  /-- Whether the last comparison found zero. -/
  zero : Bool
  globals : String → Word
  history : List Event
  clock : Nat

namespace Processor

def set (p : Processor) (target : Register) (value : Word) : Processor :=
  { p with registers := Function.update p.registers target value }

def push (p : Processor) (value : Word) : Processor :=
  { p with stack := Function.update p.stack p.height value, height := p.height + 1 }

/-- The word of the stack that a place stands for. The frame pointer holds the height that the frame starts at. -/
def index? (p : Processor) (place : Place) : Option Nat :=
  match place, p.registers .rbp with
  | .frame offset, .height base =>
    if offset % 8 = 0 ∧ 0 < offset ∧ base + offset / 8 ≤ p.height then some (base + offset / 8 - 1) else none
  | .incoming offset, .height base => if offset % 8 = 0 ∧ offset / 8 < base then some (base - 1 - offset / 8) else none
  | .top, _ => if 0 < p.height then some (p.height - 1) else none
  | _, _ => none

def read (p : Processor) (place : Place) : Option Word :=
  match place with
  | .register .rsp => some (.height p.height)
  | .register r => some (p.registers r)
  | .global name => some (p.globals name)
  | place => (p.index? place).map p.stack

def write (p : Processor) (place : Place) (value : Word) : Option Processor :=
  match place with
  | .register .rsp => none
  | .register r => some (p.set r value)
  | .global name =>
    some { p with globals := Function.update p.globals name value, history := p.history ++ [.store name value] }
  | place => (p.index? place).map fun index => { p with stack := Function.update p.stack index value }

/-- The words that a call passes: the first in registers, the others on the stack. -/
def arguments (p : Processor) (total : Nat) : List Word :=
  (Register.arguments.take total).map p.registers ++
    (List.range (total - Register.arguments.length)).map fun position => p.stack (p.height - 1 - position)

variable (world : World) (noise : Noise) (whole : Code)

/-- The state behind a call. -/
def called (p : Processor) (target : Word) (total : Nat) : Processor :=
  let history := p.history ++ [.call target (p.arguments total)]
  let owned := p.height - (total - Register.arguments.length)
  { p with
    registers := fun r =>
      if r = .rax then world.result history else if r ∈ Register.scratch then noise.registers p.clock r else p.registers r
    stack := fun index => if index < owned then p.stack index else noise.stack p.clock index
    zero := noise.zero p.clock
    globals := world.globals history p.globals
    history }

def call (p : Processor) (target : Word) (total : Nat) : Option Processor :=
  if p.height % 2 = 0 ∧ total - Register.arguments.length ≤ p.height then some (p.called world noise target total) else none

def taken (p : Processor) : Condition → Bool
  | .always => true
  | .zero | .equal => p.zero
  | .nonzero => !p.zero

def execute (p : Processor) (instruction : Instruction) : Option Processor :=
  match instruction with
  | .push source => some (p.push (p.registers source))
  | .pop target => if 0 < p.height then some { p.set target (p.stack (p.height - 1)) with height := p.height - 1 } else none
  | .move target source => do p.write target (← p.read source)
  | .argumentInt value => some (p.set .rdi (.ofInt value))
  | .argumentWord word => some (p.set .rdi (.bits word))
  | .argumentFlag value => some (p.set .rdi (.ofBool value))
  | .argumentZero => some { p.set .rdi (.bits 0) with zero := noise.zero p.clock }
  | .functionAddress target name => some (p.set target (.function name))
  | .globalAddress target name => some (p.set target (.global name))
  | .textAddress target number => do return p.set target (.text (← Code.lookup number whole))
  | .reserve bytes => some { p with height := p.height + bytes / 8, zero := noise.zero p.clock }
  | .release bytes =>
    if bytes / 8 ≤ p.height then some { p with height := p.height - bytes / 8, zero := noise.zero p.clock } else none
  | .unwind bytes =>
    match p.registers .rbp with
    | .height base => some { p with height := base + bytes / 8 }
    | _ => none
  | .call name total => p.call world noise (.function name) total
  | .callAddress total => p.call world noise (p.registers .r10) total
  | .pollRequest =>
    let history := p.history ++ [.poll]
    some { p with zero := !world.suspends history, history }
  | .testResult => some { p with zero := (p.registers .rax).isZero }
  | .jump condition target =>
    if p.taken condition then (Code.seek target whole).map fun rest => { p with rest } else some p
  | .ret => none

/-- The state behind the next line. -/
def step (p : Processor) : Option Processor :=
  match p.rest with
  | [] => none
  | .instruction instruction :: rest => { p with rest, clock := p.clock + 1 }.execute world noise whole instruction
  | .text .. :: _ => none
  | _ :: rest => some { p with rest, clock := p.clock + 1 }

def run : Nat → Processor → Option Processor
  | 0, p => some p
  | steps + 1, p => p.step world noise whole >>= run steps

/-- The function is over. -/
def Returned (p : Processor) : Prop := p.rest.head? = some (.instruction .ret)

end Processor

end NanScript
