import NanScript.Parser.Basic
import NanScript.Parser.Precedence
import NanScript.Token.Literal

/-!
# Expressions

Precedence climbing. `expression` reads an operand, then every operator that binds at least as tightly as asked, then,
at the loosest level, an assignment. The readers of the single forms do not call `expression`: they take it as the
argument `operand`, and `expression` hands itself down with one step less of depth. Each level of nesting has read a
token of its own, so a depth above the number of tokens is never used up.
-/

namespace NanScript.Parser

def maxArguments : Nat := 255

/-! ### Operands -/

section

variable {m : Type → Type} [Monad m] [MonadStateOf State m] [MonadLiftT Parser m] [Watches m] (operand : Precedence → m Tree)

def grouping : m Tree := do
  let tree ← operand .assignment
  consume .rparen "')' after expression"
  return tree

def integer (lexeme : String) : Parser Tree := do
  match Literal.integer? lexeme with
  | some value => alloc (.int · value)
  | none =>
    error .integerRange
    alloc (.int · 0)

def string (lexeme : String) : Parser Tree := do
  let text ← intern (Literal.unescape lexeme)
  alloc (.str · text)

/-- A local variable cannot be read in its own initial value. -/
def nameUse (lexeme : String) : Parser Tree := do
  let name ← intern lexeme
  let scope := (← get).scope
  if scope.isUninitialized name then semanticError .ownInitializer
  alloc (.var · name (scope.resolve name))

def unary (op : UnaryOp) : m Tree := do
  let tree ← operand .unary
  alloc (.unary · op tree)

def array (steps : Nat) : m Tree := do
  let items ← if ← check .rbracket then pure [] else sepBy .elements (fun _ => operand .assignment) steps []
  consume .rbracket "']' after array elements"
  link items
  alloc (.array · items)

def newObject : Parser Tree := do
  consume .identifier "class name after 'new'"
  let name ← intern (← previous).lexeme
  consume .lparen "'(' after class name"
  consume .rparen "')' after '('"
  alloc (.new · name)

/-- The reader of the operand that starts with a token that has just been read. -/
def primary? (steps : Nat) (token : Token) : Option (m Tree) :=
  match token.kind with
  | .lparen => some (grouping operand)
  | .lbracket => some (array operand steps)
  | .minus => some (unary operand .neg)
  | .bang => some (unary operand .not)
  | .identifier => some (nameUse token.lexeme)
  | .number => some (integer token.lexeme)
  | .float => some (alloc (.float · (Binary64.ofDecimal token.lexeme.toList)))
  | .string => some (string token.lexeme)
  | .kwTrue => some (alloc (.bool · true))
  | .kwFalse => some (alloc (.bool · false))
  | .kwNull => some (alloc .null)
  | .kwNew => some newObject
  | _ => none

/-! ### Operators -/

def binary (op : BinaryOp) (left : Tree) : m Tree := do
  let right ← operand (Operator.binary op).precedence.next
  alloc (.binary · op left right)

def ternary (condition : Tree) : m Tree := do
  let positive ← operand .ternary
  consume .colon "':' after then branch of ternary"
  let negative ← operand .ternary
  alloc (.ternary · condition positive negative)

def argument (before : List Tree) : m Tree := do
  if before.length == maxArguments then error .tooManyArguments
  operand .assignment

def call (steps : Nat) (callee : Tree) : m Tree := do
  let arguments ← if ← check .rparen then pure [] else sepBy .arguments (argument operand) steps []
  consume .rparen "')' after arguments"
  link arguments
  alloc (.call · callee arguments)

def dot (canAssign : Bool) (object : Tree) : m Tree := do
  consume .identifier "property name after '.'"
  let name ← intern (← previous).lexeme
  if canAssign && (← check .eq) then
    advance
    let value ← operand .assignment
    alloc (.set · object name value)
  else
    alloc (.get · object name)

def index (canAssign : Bool) (object : Tree) : m Tree := do
  let position ← operand .assignment
  consume .rbracket "']' after index"
  if canAssign && (← check .eq) then
    advance
    let value ← operand .assignment
    alloc (.indexSet · object position value)
  else
    alloc (.indexGet · object position)

/-- The reader of what an operator that has just been read does with the operand in front of it. -/
def follow (steps : Nat) (canAssign : Bool) : Operator → Tree → m Tree
  | .binary op, left => binary operand op left
  | .ternary, condition => ternary operand condition
  | .call, callee => call operand steps callee
  | .index, object => index operand canAssign object
  | .dot, object => dot operand canAssign object

/-- Read every operator that binds at least as tightly as `precedence`, at most `steps` of them. -/
def climb (depth : Nat) (precedence : Precedence) : Nat → Tree → m Tree
  | 0, tree => enter .exhausted (return tree)
  | steps + 1, tree => enter .operators do
    match Operator.ofToken? (← get).current.kind with
    | none => return tree
    | some operator =>
      if precedence ≤ operator.precedence then
        advance
        let tree ← handle (follow operand depth (precedence ≤ .assignment) operator tree)
        climb depth precedence steps tree
      else
        return tree

/-- Read an assignment sign and a value, if they follow. Only a variable can be assigned to here; assignments to
properties and elements have been read with their operator. -/
def assignment (target : Tree) : m Tree := do
  match assignmentOp? (← get).current.kind with
  | none => return target
  | some op =>
    advance
    let value ← operand .assignment
    match target with
    | .var _ name symbol =>
      match op with
      | none => alloc (.assign · name symbol value)
      | some op =>
        let current ← alloc (.var · name symbol)
        let result ← alloc (.binary · op current value)
        alloc (.assign · name symbol result)
    | _ =>
      error .invalidTarget
      return target

end

variable {m : Type → Type} [Monad m] [MonadStateOf State m] [MonadLiftT Parser m] [Watches m]

/-- Read an expression whose operators bind at least as tightly as `precedence`. -/
def expressionAt : Nat → Precedence → m Tree
  | 0, _ => enter .exhausted (alloc .null)
  | depth + 1, precedence => enter .precedence do
    advance
    let operand := expressionAt depth
    match primary? operand depth (← previous) with
    | none =>
      error (.expected "expression")
      alloc .null
    | some reader =>
      let tree ← climb operand depth precedence depth (← handle reader)
      if precedence ≤ .assignment then handle (assignment operand tree) else return tree

def expression (depth : Nat) : m Tree := expressionAt depth .assignment

end NanScript.Parser
