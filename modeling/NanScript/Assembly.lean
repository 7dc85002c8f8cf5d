import NanScript.Location
import NanScript.Text.Hash
import NanScript.Text.Hex

/-!
# Assembly

The instructions that compiled code is made of, as a type with one constructor for each shape that occurs, and code as
a list of lines. Text is made only at the end, so that everything before it can speak of registers, labels and names
and not of characters.

Names of functions are written behind a dollar sign, which keeps the assembler from reading `add` or `loop` as an
instruction. The names that the runtime library exports are written bare: they cannot be redefined.
-/

namespace NanScript

/-- The names that the runtime library exports. Each is declared in every file, and a program may call it by name. -/
def runtimeExports : List String :=
  ["aria_runtime_init", "aria_register_global_root", "aria_gc_collect", "gc_suspend_request", "gc_enter_safepoint",
    "exit", "dyn_new_int", "dyn_new_float", "dyn_new_str", "dyn_new_bool", "dyn_new_null", "dyn_add", "dyn_sub",
    "dyn_mul", "dyn_div", "dyn_mod", "dyn_eq", "dyn_neq", "dyn_lt", "dyn_le", "dyn_gt", "dyn_ge", "dyn_neg",
    "dyn_not", "dyn_truthy", "list_new", "list_push", "list_get", "list_set", "list_len", "aria_alloc_object",
    "aria_obj_get", "aria_obj_set", "print", "println", "thread_create", "thread_join"]

/-- A place inside one function. Numbers are drawn from one counter for the whole program. -/
inductive Label where
  | ret
  | safe (number : Nat)
  | otherwise (number : Nat)
  | finish (number : Nat)
  | again (number : Nat)
  | next (number : Nat)
  | ternary (number : Nat)
  | ternaryEnd (number : Nat)
  | shortEnd (number : Nat)
  | text (number : Nat)
  | textEnd (number : Nat)
  deriving DecidableEq, Repr, Inhabited

inductive Place where
  | register (register : Register)
  /-- A word of the frame, below the frame pointer. -/
  | frame (offset : Nat)
  /-- A word the caller pushed, above the frame pointer. -/
  | incoming (offset : Nat)
  | top
  | global (name : String)
  deriving DecidableEq, Repr, Inhabited

inductive Condition where
  | always | zero | nonzero | equal
  deriving DecidableEq, Repr, Inhabited

inductive Instruction where
  | push (source : Register)
  | pop (target : Register)
  | move (target source : Place)
  /-- The first argument of a call becomes a number, a word, or a flag. -/
  | argumentInt (value : Int)
  | argumentWord (word : UInt64)
  | argumentFlag (value : Bool)
  | argumentZero
  | functionAddress (target : Register) (name : String)
  | globalAddress (target : Register) (name : String)
  | textAddress (target : Register) (number : Nat)
  | reserve (bytes : Nat)
  | release (bytes : Nat)
  | unwind (bytes : Nat)
  /-- A call, with the number of the arguments it passes. The text does not show the number. -/
  | call (name : String) (arguments : Nat)
  | callAddress (arguments : Nat)
  /-- Compare the runtime's wish for a collection with zero. -/
  | pollRequest
  | testResult
  | jump (condition : Condition) (target : Label)
  | ret
  deriving DecidableEq, Repr, Inhabited

inductive Line where
  | instruction (instruction : Instruction)
  | label (label : Label)
  | entry
  | function (name : String)
  /-- A text in the midst of the code, closed by a zero byte. -/
  | text (number : Nat) (bytes : List UInt8)
  | blank
  deriving DecidableEq, Repr, Inhabited

abbrev Code := List Line

instance : Coe Register Place := ⟨.register⟩

def Location.place : Location → Place
  | register r => .register r
  | frame offset => .frame offset

def Line.reference? : Line → Option String
  | instruction (.call name _) => some name
  | instruction (.functionAddress _ name) => some name
  | _ => none

structure Assembly where
  undefined : List String
  globals : List String
  code : Code
  deriving DecidableEq, Repr, Inhabited

end NanScript
