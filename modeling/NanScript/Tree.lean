import NanScript.Symbol

/-!
# Program trees

One type holds expressions, statements and declarations. The parser keeps them apart, but the passes behind it accept
every tree and say what it means, or why it means nothing. Every node carries a note: its number in the order of
making, and its line.
-/

namespace NanScript

inductive BinaryOp where
  | add | sub | mul | div | mod
  | eq | notEq | lt | ltEq | gt | gtEq
  | and | or
  deriving DecidableEq, Repr, Inhabited

/-- Whether the right operand is evaluated only when the left one does not decide. -/
def BinaryOp.isShortCircuit : BinaryOp → Bool
  | and | or => true
  | _ => false

inductive UnaryOp where
  | neg | not
  deriving DecidableEq, Repr, Inhabited

structure Note where
  id : Nat
  line : Nat
  deriving DecidableEq, Repr, Inhabited

inductive Tree where
  | int (note : Note) (value : Int)
  | float (note : Note) (bits : UInt64)
  | bool (note : Note) (value : Bool)
  | null (note : Note)
  | str (note : Note) (text : String)
  | array (note : Note) (items : List Tree)
  | var (note : Note) (name : String) (symbol : Symbol)
  | assign (note : Note) (name : String) (symbol : Symbol) (value : Tree)
  | binary (note : Note) (op : BinaryOp) (left right : Tree)
  | unary (note : Note) (op : UnaryOp) (operand : Tree)
  | ternary (note : Note) (condition positive negative : Tree)
  | call (note : Note) (callee : Tree) (arguments : List Tree)
  | get (note : Note) (object : Tree) (name : String)
  | set (note : Note) (object : Tree) (name : String) (value : Tree)
  | indexGet (note : Note) (object index : Tree)
  | indexSet (note : Note) (object index value : Tree)
  | new (note : Note) (className : String)
  | varDecl (note : Note) (name : String) (symbol : Symbol) (managed : Bool) (initial : Option Tree)
  | block (note : Note) (statements : List Tree)
  | ifElse (note : Note) (condition positive : Tree) (negative : Option Tree)
  /-- The step of a `for` runs after the body, also when `continue` leaves it. -/
  | whileLoop (note : Note) (condition body : Tree) (step : Option Tree)
  | ret (note : Note) (value : Option Tree)
  | breakLoop (note : Note)
  | continueLoop (note : Note)
  /-- `name` is the symbol in the assembly, `sourceName` the name in the source. -/
  | funcDecl (note : Note) (name sourceName : String) (parameters : List Tree) (body : Tree)
  | classDecl (note : Note) (name : String) (methods : List Tree)
  deriving Repr, Inhabited

namespace Tree

def note : Tree → Note
  | int note _ | float note _ | bool note _ | null note | str note _ | array note _ | var note _ _
  | assign note _ _ _ | binary note _ _ _ | unary note _ _ | ternary note _ _ _ | call note _ _ | get note _ _
  | set note _ _ _ | indexGet note _ _ | indexSet note _ _ _ | new note _ | varDecl note _ _ _ _ | block note _
  | ifElse note _ _ _ | whileLoop note _ _ _ | ret note _ | breakLoop note | continueLoop note
  | funcDecl note _ _ _ _ | classDecl note _ _ => note

def id (tree : Tree) : Nat := tree.note.id

def line (tree : Tree) : Nat := tree.note.line

end Tree

end NanScript
