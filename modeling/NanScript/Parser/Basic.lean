import NanScript.Parser.Error
import NanScript.Scope
import NanScript.Token.Lexer
import NanScript.Tree.Form

/-!
# The state of the parser

The parser reads tokens with one token of lookahead and never stops at an error. The first error of a statement is
recorded and the parser panics: it stays silent until `recover` has found the next place where a statement can
begin. Problems of meaning, such as a name declared twice, are recorded without panic.

Every node gets its number and line here, in `alloc`, and goes into the arena.
-/

namespace NanScript

structure Parser.State where
  /-- The tokens behind the current one. The last token of a text stays forever. -/
  rest : List Token
  current : Token
  previous : Token
  arena : Arena Form
  errors : Array ParseError
  panicking : Bool
  scope : Scope
  className : Option String
  loopDepth : Nat

abbrev Parser := StateM Parser.State

namespace Parser

namespace State

def initial (tokens : List Token) : State where
  rest := tokens
  current := Token.blank
  previous := Token.blank
  arena := Arena.empty
  errors := #[]
  panicking := false
  scope := Scope.initial
  className := none
  loopDepth := 0

def report (state : State) (token : Token) (problem : ParseProblem) : State :=
  { state with errors := state.errors.push ⟨token.line, token.errorLocation, problem⟩ }

/-- Record a problem at a token and panic, unless the parser panics already. -/
def errorAt (state : State) (token : Token) (problem : ParseProblem) : State :=
  if state.panicking then state else { state.report token problem with panicking := true }

/-- Make the next token the current one. Tokens that stand for lexical errors are reported and passed over. -/
def pull : List Token → State → State
  | [], state => state
  | [last], state => { state with current := last, rest := [last] }
  | token :: rest, state =>
    let state := { state with current := token, rest }
    if token.kind = .error then pull rest (state.errorAt token (.lexical token.lexeme)) else state

def advance (state : State) : State := pull state.rest { state with previous := state.current }

def check (state : State) (kind : TokenKind) : Bool := state.current.kind == kind

/-- Make a node. It is put on the line of the token read last. -/
def alloc (state : State) (make : Note → Tree) : Tree × State :=
  let tree := make ⟨state.arena.size, state.previous.line⟩
  (tree, { state with arena := (state.arena.alloc tree.form state.previous.line).2 })

end State

/-! ### Tokens -/

def advance : Parser Unit := modify State.advance

def check (kind : TokenKind) : Parser Bool := return (← get).check kind

def previous : Parser Token := return (← get).previous

def accept (kind : TokenKind) : Parser Bool := do
  if ← check kind then
    advance
    return true
  else
    return false

/-! ### Errors -/

def errorAtCurrent (problem : ParseProblem) : Parser Unit := modify fun state => state.errorAt state.current problem

def error (problem : ParseProblem) : Parser Unit := modify fun state => state.errorAt state.previous problem

/-- Record a problem at the token read last, without panic. -/
def semanticError (problem : ParseProblem) : Parser Unit := modify fun state => state.report state.previous problem

/-- Read a token of the given kind. If another one stands there, it stays. -/
def consume (kind : TokenKind) (what : String) : Parser Unit := do
  if ← check kind then advance else errorAtCurrent (.expected what)

/-- What cannot stand there is reported and passed over. -/
def refuse (problem : ParseProblem) : Parser (Option Tree) := do
  errorAtCurrent problem
  advance
  return none

/-! ### Nodes -/

def alloc (make : Note → Tree) : Parser Tree := modifyGet (·.alloc make)

def link (trees : List Tree) : Parser Unit :=
  modify fun state => { state with arena := (state.arena.link (trees.map Tree.id)).2 }

/-- A text as it may stand in a tree. Texts that are too long to be interned are reported, and the empty text stands for
them. -/
def intern (text : String) : Parser String := do
  if Interner.maxLength < text.utf8ByteSize then
    error (.unnameable (.oversized text.utf8ByteSize))
    return ""
  else
    return text

/-! ### Names -/

def modifyScope (change : Scope → Scope) : Parser Unit :=
  modify fun state => { state with scope := change state.scope }

/-- Declare a name in the innermost scope. If it is there already it keeps its symbol, and `problem` is reported. -/
def declare (name : String) (problem : Option ParseProblem) : Parser Symbol := do
  let scope := (← get).scope
  match scope.declaredHere? name with
  | some existing =>
    if let some problem := problem then semanticError problem
    return existing
  | none =>
    modifyScope (·.declare name)
    return scope.nextSymbol

def declarePrevious : Parser (String × Symbol) := do
  let lexeme := (← previous).lexeme
  let name ← intern lexeme
  let symbol ← declare name (some (.duplicateVariable lexeme))
  return (name, symbol)

/-! ### Readers that can be watched -/

/-- What readers do that can come to themselves again. -/
inductive Activity where
  /-- The readers. -/
  | precedence | statement | block | function
  /-- Rounds of the loops. -/
  | declarations | members | methods | elements | arguments | parameters | operators | skipping
  /-- Any other handler. -/
  | handler
  /-- The depth or the number of rounds was used up. -/
  | exhausted
  deriving DecidableEq

/-- Readers are written for any monad that has the state and can run what is above. It may take note of each activity that
begins; the parser does not. -/
class Watches (m : Type → Type) where
  enter {α : Type} : Activity → m α → m α
  handle {α : Type} : m α → m α

export Watches (enter handle)

instance : Watches Parser where
  enter _ reader := reader
  handle reader := reader

variable {m : Type → Type} [Monad m] [MonadStateOf State m] [MonadLiftT Parser m] [Watches m]

/-- Pass over tokens up to a place where a statement can begin. -/
def skipStatement : Nat → m Unit
  | 0 => enter .exhausted (return ())
  | steps + 1 => enter .skipping do
    let state ← get
    if state.check .eof || state.previous.kind == .semicolon || state.current.kind.startsStatement then return ()
    else
      advance
      skipStatement steps

/-- Stop panicking, and pass over tokens up to a place where a statement can begin. -/
def synchronize : m Unit := do
  modify fun state => { state with panicking := false }
  skipStatement ((← get).rest.length + 1)

def recover : m Unit := do
  if (← get).panicking then handle synchronize

/-! ### Repetition -/

/-- Items with commas between them, at most `steps` of them, the last in front. Each is read with the ones before it at
hand. -/
def sepByBackward (round : Activity) (item : List Tree → m Tree) : Nat → List Tree → m (List Tree)
  | 0, items => enter .exhausted (return items)
  | steps + 1, items => enter round do
    let tree ← item items
    if ← accept .comma then sepByBackward round item steps (tree :: items) else return tree :: items

def sepBy (round : Activity) (item : List Tree → m Tree) (steps : Nat) (first : List Tree) : m (List Tree) :=
  return (← sepByBackward round item steps first.reverse).reverse

/-- Members of a body up to a token at which it ends, at most `steps` of them, the last in front. After each one the
parser recovers from a panic. -/
def bodyBackward (round : Activity) (ends : TokenKind → Bool) (member : m (Option Tree)) : Nat → List Tree → m (List Tree)
  | 0, members => enter .exhausted (return members)
  | steps + 1, members => enter round do
    if ends (← get).current.kind then return members
    else
      let tree ← member
      recover
      bodyBackward round ends member steps (tree.toList ++ members)

def body (round : Activity) (ends : TokenKind → Bool) (member : m (Option Tree)) (steps : Nat) : m (List Tree) :=
  return (← bodyBackward round ends member steps []).reverse

/-- A body in braces ends at its closing brace, or at the end of the text. -/
def endsBody (kind : TokenKind) : Bool := kind == .rbrace || kind == .eof

end Parser

end NanScript
