import NanScript.Parser.Statement

/-!
# Declarations and programs

Functions, classes and global variables, and whole programs made of them.

A function has two names: the one in the source, and the one its code gets. A method is `Class_method`, and the function
`main` is renamed, because the entry point of the assembly needs its name.
-/

namespace NanScript.Parser

def mainSymbol : String := "aria_main"

def thisName : String := "this"

/-- The name of the code of the function whose source name, `sourceName`, has just been read. -/
def codeName (sourceName : String) : Parser String := do
  match (← get).className with
  | some className => intern s!"{className}_{sourceName}"
  | none => if (← previous).lexeme == "main" then intern mainSymbol else return sourceName

def parameter (name : String) (symbol : Symbol) : Parser Tree := do
  modifyScope Scope.markInitialized
  alloc (.var · name symbol)

/-- A method has its object as a parameter in front. -/
def receiver : Parser (List Tree) := do
  if (← get).className.isNone then return []
  else
    let name ← intern thisName
    let symbol ← declare name none
    return [← parameter name symbol]

def namedParameter : Parser Tree := do
  consume .identifier "parameter name"
  let (name, symbol) ← declarePrevious
  parameter name symbol

variable {m : Type → Type} [Monad m] [MonadStateOf State m] [MonadLiftT Parser m] [Watches m]

def parameters (steps : Nat) : m (List Tree) := do
  let first ← receiver
  consume .lparen "'(' after function name"
  let all ← if ← check .rparen then pure first else sepBy .parameters (fun _ => handle namedParameter) steps first
  consume .rparen "')' after parameters"
  return all

/-- The parameters and the body of a function, in a scope of their own and outside of all loops. -/
def parametersAndBody (depth : Nat) : m (List Tree × Tree) := do
  let loopDepth := (← get).loopDepth
  modify fun state => { state with loopDepth := 0 }
  modifyScope Scope.enter
  let parameters ← parameters depth
  consume .lbrace "'\x7b' before function body"
  let tree ← block (statement depth) depth
  modifyScope Scope.leave
  modify fun state => { state with loopDepth }
  return (parameters, tree)

def function (depth : Nat) : m Tree := enter .function do
  consume .identifier "function name"
  let sourceName ← intern (← previous).lexeme
  let name ← codeName sourceName
  let (parameters, tree) ← parametersAndBody depth
  link parameters
  alloc (.funcDecl · name sourceName parameters tree)

def method (depth : Nat) : m (Option Tree) := do
  if ← accept .kwFunc then some <$> function depth else refuse (.expected "method declaration")

def classDeclaration (depth : Nat) : m Tree := handle do
  consume .identifier "class name"
  let name ← intern (← previous).lexeme
  consume .lbrace "'\x7b' before class body"
  let enclosing := (← get).className
  modify fun state => { state with className := some name }
  let methods ← body .methods endsBody (method depth) depth
  modify fun state => { state with className := enclosing }
  consume .rbrace "'\x7d' after class body"
  link methods
  alloc (.classDecl · name methods)

def declaration (depth : Nat) : m (Option Tree) := do
  match (← get).current.kind with
  | .kwFunc =>
    advance
    some <$> function depth
  | .kwClass =>
    advance
    some <$> classDeclaration depth
  | .kwVar =>
    advance
    some <$> varDeclaration depth false
  | .kwManaged =>
    advance
    some <$> managedDeclaration depth
  | _ => refuse (.expected "declaration")

def program (depth : Nat) : m (List Tree) := do
  advance
  let declarations ← body .declarations (· == .eof) (declaration depth) depth
  link declarations
  return declarations

/-- A nesting depth, and a number of repetitions, that the reading of `tokens` cannot reach. -/
def depthBound (tokens : List Token) : Nat := tokens.length + 3

end NanScript.Parser

namespace NanScript

/-- What comes of a source text: the declarations, the arena of all nodes, and what was wrong. -/
structure Parsed where
  program : List Tree
  arena : Arena Form
  errors : List ParseError

/-- Parse a program. There is always a tree; it is the tree of the source only if there are no errors. -/
def parse (source : String) : Parsed :=
  let tokens := tokens source
  let (program, state) := (Parser.program (Parser.depthBound tokens) : Parser _).run (Parser.State.initial tokens)
  { program, arena := state.arena, errors := state.errors.toList }

end NanScript
