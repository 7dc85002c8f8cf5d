import NanScript.Assembly.Shape
import NanScript.Outline

/-!
# Code of a body

Code is made by one walk over the tree, in the order the code runs. The walk draws label numbers from a counter and
fails where a name has no meaning. Statements leave nothing behind and expressions a value in `rax`; a statement where
an expression is expected leaves whatever was there.
-/

namespace NanScript

structure LoopLabels where
  next : Nat
  finish : Nat
  deriving DecidableEq, Repr, Inhabited

/-- What the names and jumps inside a body refer to. -/
structure Surroundings where
  outline : Outline
  allocation : Allocation
  loop : Option LoopLabels := none

/-- Making code: numbers for labels are drawn in order, and there may be an error. -/
abbrev Emit := StateT Nat (Except CodegenError)

namespace Emit

def label : Emit Nat := modifyGet fun number => (number, number + 1)

def poll (before after : List Instruction) : Emit Code := return Code.poll (← label) before after

def location (around : Surroundings) (symbol : Symbol) : Emit Location :=
  match symbol.local? with
  | some id =>
    match around.allocation.location? id with
    | some location => return location
    | none => throw (.unallocated id)
  | none => throw (.unallocated 0)

/-- The value of a name: of a local, of a top-level variable, or else the address of a function. -/
def load (around : Surroundings) (name : String) (symbol : Symbol) : Emit Code := do
  match symbol with
  | .localVar _ => return Code.instructions [.move Register.rax (← location around symbol).place]
  | _ =>
    if symbol.isGlobal || around.outline.isGlobal name then
      return Code.instructions [.move Register.rax (.global name)]
    else return Code.instructions [.functionAddress .rax name]

def store (around : Surroundings) (name : String) (symbol : Symbol) : Emit Code := do
  match symbol with
  | .localVar _ => return Code.instructions [.move (← location around symbol).place Register.rax]
  | _ =>
    if symbol.isGlobal || around.outline.isGlobal name then
      return Code.instructions [.move (.global name) Register.rax]
    else throw (.undefinedVariable name)

def text (content : String) : Emit (Code × Nat) := do
  let skip ← label
  let data ← label
  return (Code.text skip data content, data)

def methods (depth : Nat) : List Tree → Emit Code
  | [] => return []
  | .funcDecl _ name sourceName _ _ :: rest => do
    let (key, number) ← text sourceName
    return key ++ Code.method depth number name ++ (← methods depth rest)
  | _ :: rest => methods depth rest

def new (around : Surroundings) (depth : Nat) (className : String) : Emit Code := do
  match around.outline.methods? className with
  | some list => return Code.new depth (← methods (depth + 1) list)
  | none => throw (.unknownClass className)

def innermost (around : Surroundings) (keyword : String) : Emit LoopLabels :=
  match around.loop with
  | some labels => return labels
  | none => throw (.strayJump keyword)

/-- The function that a call goes straight to, if its callee is the name of one. -/
def direct? (around : Surroundings) : Tree → Option String
  | .var _ name symbol => if symbol.isUnresolved && !around.outline.isGlobal name then some name else none
  | _ => none

mutual

/-- The code of a tree, at a depth of words waiting on the stack. -/
def code (around : Surroundings) (depth : Nat) (tree : Tree) : Emit Code :=
  match tree with
  | .int _ value => return Code.instructions [.argumentInt value] ++ Code.runtime depth "dyn_new_int" 1
  | .float _ bits => return Code.instructions [.argumentWord bits] ++ Code.runtime depth "dyn_new_float" 1
  | .bool _ value => return Code.instructions [.argumentFlag value] ++ Code.runtime depth "dyn_new_bool" 1
  | .null _ => return Code.runtime depth "dyn_new_null" 0
  | .str _ content => do
    let (data, number) ← text content
    return data ++ Code.instructions [.textAddress .rdi number] ++ Code.runtime depth "dyn_new_str" 1
  | .array _ items => return Code.runtime depth "list_new" 0 ++ (← codeItems around depth items)
  | .var _ name symbol => load around name symbol
  | .assign _ name symbol value => do
    let value ← code around depth value
    return value ++ (← store around name symbol)
  | .binary _ op left right => do
    if op.isShortCircuit then
      let number ← label
      let left ← code around depth left
      let right ← code around depth right
      return Code.shortCircuit depth number (if op = .and then .zero else .nonzero) left right
    else
      let left ← code around depth left
      let right ← code around (depth + 1) right
      return Code.binary depth op left right
  | .unary _ op operand => return Code.unary depth op (← code around depth operand)
  | .ternary _ condition positive negative => do
    let other ← label
    let finish ← label
    let condition ← code around depth condition
    let positive ← code around depth positive
    let negative ← code around depth negative
    return Code.ternary depth other finish condition positive negative
  | .call _ (.get _ object name) arguments => do
    let total := arguments.length + 1
    let base := depth + Code.padding depth total
    let pushed ← codeArguments around base arguments
    let (key, number) ← text name
    let object ← code around (base + arguments.length) object
    let receiver := key ++ Code.receiver (base + arguments.length) number object
    return Code.call depth total pushed receiver .callAddress
  | .call _ callee arguments => do
    let total := arguments.length
    let base := depth + Code.padding depth total
    let pushed ← codeArguments around base arguments
    match direct? around callee with
    | some name => return Code.call depth total pushed [] (.call name)
    | none =>
      let target ← code around (base + arguments.length) callee
      return Code.call depth total pushed (target ++ Code.instructions [.move Register.r10 Register.rax]) .callAddress
  | .get _ object name => do
    let (key, number) ← text name
    return key ++ Code.get depth number (← code around depth object)
  | .set _ object name value => do
    let (key, number) ← text name
    let object ← code around depth object
    let value ← code around (depth + 1) value
    return key ++ Code.set depth number object value
  | .indexGet _ object index => do
    let object ← code around depth object
    let index ← code around (depth + 1) index
    return Code.indexGet depth object index
  | .indexSet _ object index value => do
    let object ← code around depth object
    let index ← code around (depth + 1) index
    let value ← code around (depth + 2) value
    return Code.indexSet depth object index value
  | .new _ className => new around depth className
  | .varDecl _ _ symbol _ initial => do
    let value ← codeOrNull around depth initial
    return value ++ Code.instructions [.move (← location around symbol).place Register.rax]
  | .block _ statements => codeAll around depth statements
  | .ifElse _ condition positive negative => do
    let other ← label
    let finish ← label
    let condition ← code around depth condition
    let positive ← code around depth positive
    let negative ← codeOrNothing around depth negative
    return Code.ifElse depth other finish condition positive negative
  | .whileLoop _ condition body step => do
    let again ← label
    let next ← label
    let finish ← label
    let safe ← label
    let condition ← code around depth condition
    let body ← code { around with loop := some ⟨next, finish⟩ } depth body
    let step ← codeOrNothing around depth step
    return Code.whileLoop depth again next finish safe condition body step
  | .ret _ value => do
    let value ← codeOrNull around depth value
    return value ++ Code.instructions [.jump .always .ret]
  | .breakLoop _ => return Code.instructions [.jump .always (.finish (← innermost around "break").finish)]
  | .continueLoop _ => return Code.instructions [.jump .always (.next (← innermost around "continue").next)]
  | .funcDecl .. | .classDecl .. => return []

def codeAll (around : Surroundings) (depth : Nat) (trees : List Tree) : Emit Code :=
  match trees with
  | [] => return []
  | tree :: rest => do
    let first ← code around depth tree
    return first ++ (← codeAll around depth rest)

def codeItems (around : Surroundings) (depth : Nat) (trees : List Tree) : Emit Code :=
  match trees with
  | [] => return []
  | tree :: rest => do
    let first ← code around (depth + 1) tree
    return Code.item depth first ++ (← codeItems around depth rest)

def codeArguments (around : Surroundings) (depth : Nat) (trees : List Tree) : Emit Code :=
  match trees with
  | [] => return []
  | tree :: rest => do
    let pushed ← codeArguments around depth rest
    let first ← code around (depth + rest.length) tree
    return pushed ++ first ++ Code.instructions [.push .rax]

def codeOrNull (around : Surroundings) (depth : Nat) (tree : Option Tree) : Emit Code :=
  match tree with
  | some tree => code around depth tree
  | none => return Code.runtime depth "dyn_new_null" 0

def codeOrNothing (around : Surroundings) (depth : Nat) (tree : Option Tree) : Emit Code :=
  match tree with
  | some tree => code around depth tree
  | none => return []

end

end Emit

end NanScript
