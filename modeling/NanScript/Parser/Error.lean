import NanScript.Interner
import NanScript.Token

/-!
# Errors of the parser

What is wrong, and where. The wording of every message is here.
-/

namespace NanScript

inductive ParseProblem where
  /-- The scanner made no token of the text; it has said why. -/
  | lexical (message : String)
  | expected (what : String)
  | nestedDeclaration
  | duplicateVariable (name : String)
  | ownInitializer
  | invalidTarget
  | tooManyArguments
  | integerRange
  | jumpOutsideLoop (keyword : String)
  | unnameable (problem : InternError)
  deriving DecidableEq, Repr

def ParseProblem.message : ParseProblem → String
  | lexical message => message
  | expected what => s!"Expect {what}."
  | nestedDeclaration => "Functions and classes must be declared at top level."
  | duplicateVariable name => s!"Variable '{name}' already declared in this scope."
  | ownInitializer => "Can't read local variable in its own initializer."
  | invalidTarget => "Invalid assignment target."
  | tooManyArguments => "Can't have more than 255 arguments."
  | integerRange => "Integer literal out of range."
  | jumpOutsideLoop keyword => s!"Can't use '{keyword}' outside of a loop."
  | unnameable problem => problem.message

inductive ErrorLocation where
  | token (lexeme : String)
  | endOfText
  | lexical
  deriving DecidableEq, Repr

structure ParseError where
  line : Nat
  location : ErrorLocation
  problem : ParseProblem
  deriving DecidableEq, Repr

def Token.errorLocation (token : Token) : ErrorLocation :=
  match token.kind with
  | .eof => .endOfText
  | .error => .lexical
  | _ => .token token.lexeme

def ErrorLocation.text : ErrorLocation → String
  | token lexeme => s!" at '{lexeme}'"
  | endOfText => " at end"
  | lexical => ""

def ParseError.render (error : ParseError) : String :=
  s!"[line {error.line}] Error{error.location.text}: {error.problem.message}"

end NanScript
