import NanScript.Parser.Expression

/-!
# Statements

Statements, blocks and variable declarations. As with expressions, the readers of the single forms take the reader of a
nested statement as the argument `nested`, and `statement` hands itself down with one step less of depth.
-/

namespace NanScript.Parser

variable {m : Type → Type} [Monad m] [MonadStateOf State m] [MonadLiftT Parser m] [Watches m]

/-- An expression, unless a token of the kind that ends it stands there already. -/
def optionalExpression (depth : Nat) (ends : TokenKind) : m (Option Tree) := do
  if ← check ends then return none else some <$> expression depth

/-- What stands behind a token of the given kind, if there is such a token. -/
def behind (kind : TokenKind) (reader : m Tree) : m (Option Tree) := do
  if ← accept kind then some <$> reader else return none

def expressionStatement (depth : Nat) : m Tree := handle do
  let tree ← expression depth
  consume .semicolon "';' after expression"
  return tree

def varDeclaration (depth : Nat) (managed : Bool) : m Tree := handle do
  consume .identifier "variable name"
  let (name, symbol) ← declarePrevious
  let initial ← behind .eq (expression depth)
  modifyScope Scope.markInitialized
  consume .semicolon "';' after variable declaration"
  alloc (.varDecl · name symbol managed initial)

def managedDeclaration (depth : Nat) : m Tree := handle do
  consume .kwVar "'var' after 'managed'"
  varDeclaration depth true

def returnStatement (depth : Nat) : m Tree := do
  let value ← optionalExpression depth .semicolon
  consume .semicolon "';' after return value"
  alloc (.ret · value)

def loopJump (make : Note → Tree) : Parser Tree := do
  let keyword := (← previous).lexeme
  if (← get).loopDepth == 0 then error (.jumpOutsideLoop keyword)
  consume .semicolon s!"';' after '{keyword}'"
  alloc make

section

variable (nested : m Tree)

/-- A statement or a variable declaration in a block. Functions and classes are refused there. -/
def blockMember (depth : Nat) : m (Option Tree) := do
  match (← get).current.kind with
  | .kwVar =>
    advance
    some <$> varDeclaration depth false
  | .kwManaged =>
    advance
    some <$> managedDeclaration depth
  | .kwFunc | .kwClass => refuse .nestedDeclaration
  | _ => some <$> nested

/-- A block behind its opening brace, in a scope of its own. -/
def block (depth : Nat) : m Tree := enter .block do
  modifyScope Scope.enter
  let statements ← body .members endsBody (blockMember nested depth) depth
  consume .rbrace "'\x7d' after block"
  modifyScope Scope.leave
  link statements
  alloc (.block · statements)

def ifStatement (depth : Nat) : m Tree := do
  consume .lparen "'(' after 'if'"
  let condition ← expression depth
  consume .rparen "')' after condition"
  let positive ← nested
  let negative ← behind .kwElse nested
  alloc (.ifElse · condition positive negative)

def loopBody : m Tree := do
  modify fun state => { state with loopDepth := state.loopDepth + 1 }
  let tree ← nested
  modify fun state => { state with loopDepth := state.loopDepth - 1 }
  return tree

def whileStatement (depth : Nat) : m Tree := do
  consume .lparen "'(' after 'while'"
  let condition ← expression depth
  consume .rparen "')' after condition"
  let tree ← loopBody nested
  alloc (.whileLoop · condition tree none)

def forInitial (depth : Nat) : m (Option Tree) := do
  if ← accept .semicolon then return none
  else if ← accept .kwVar then some <$> varDeclaration depth false
  else some <$> expressionStatement depth

/-- The condition of a `for`. A missing one is `true`. -/
def forCondition (depth : Nat) : m Tree := do
  match ← optionalExpression depth .semicolon with
  | some condition => return condition
  | none => alloc (.bool · true)

/-- A `for` is a block with its initial part and a `while` that has a step. -/
def forStatement (depth : Nat) : m Tree := do
  modifyScope Scope.enter
  consume .lparen "'(' after 'for'"
  let initial ← forInitial depth
  let condition ← forCondition depth
  consume .semicolon "';' after loop condition"
  let step ← optionalExpression depth .rparen
  consume .rparen "')' after for clauses"
  let tree ← loopBody nested
  modifyScope Scope.leave
  let loop ← alloc (.whileLoop · condition tree step)
  let statements := initial.toList ++ [loop]
  link statements
  alloc (.block · statements)

/-- The reader of the statement that starts with a token of the given kind, which is to be passed over first. -/
def keywordStatement? (depth : Nat) : TokenKind → Option (m Tree)
  | .kwIf => some (ifStatement nested depth)
  | .kwWhile => some (whileStatement nested depth)
  | .kwFor => some (forStatement nested depth)
  | .kwReturn => some (returnStatement depth)
  | .kwBreak => some (loopJump .breakLoop)
  | .kwContinue => some (loopJump .continueLoop)
  | .lbrace => some (block nested depth)
  | _ => none

end

def statement : Nat → m Tree
  | 0 => enter .exhausted (alloc .null)
  | depth + 1 => enter .statement do
    match keywordStatement? (statement depth) depth (← get).current.kind with
    | some reader =>
      advance
      handle reader
    | none => expressionStatement depth

end NanScript.Parser
