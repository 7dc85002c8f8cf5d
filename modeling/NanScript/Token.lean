/-!
# Tokens

What the scanner hands to the parser: a kind, the text it was read from, and the line on which it ends. A lexical
error is a token as well. Its kind is `error` and its text is the message, so scanning never has to stop.
-/

namespace NanScript

inductive TokenKind where
  | kwFunc | kwVar | kwReturn | kwIf | kwElse | kwWhile | kwFor | kwClass | kwManaged | kwNew
  | kwTrue | kwFalse | kwNull | kwBreak | kwContinue | kwIs
  | identifier | number | float | string
  | lparen | rparen | lbrace | rbrace | lbracket | rbracket
  | semicolon | comma | dot | colon | question
  | plus | minus | star | slash | percent
  | eq | eqEq | notEq | lt | ltEq | gt | gtEq
  | andAnd | orOr | bang | arrow
  | plusEq | minusEq | starEq | slashEq
  | error | eof
  deriving DecidableEq, Repr, Inhabited

namespace TokenKind

/-- How a kind is called in messages: the spelling of a keyword or sign, a noun for the rest. -/
def display : TokenKind → String
  | kwFunc => "func" | kwVar => "var" | kwReturn => "return" | kwIf => "if" | kwElse => "else"
  | kwWhile => "while" | kwFor => "for" | kwClass => "class" | kwManaged => "managed" | kwNew => "new"
  | kwTrue => "true" | kwFalse => "false" | kwNull => "null" | kwBreak => "break"
  | kwContinue => "continue" | kwIs => "is"
  | identifier => "identifier" | number => "integer" | float => "float" | string => "string"
  | lparen => "(" | rparen => ")" | lbrace => "\x7b" | rbrace => "\x7d" | lbracket => "[" | rbracket => "]"
  | semicolon => ";" | comma => "," | dot => "." | colon => ":" | question => "?"
  | plus => "+" | minus => "-" | star => "*" | slash => "/" | percent => "%"
  | eq => "=" | eqEq => "==" | notEq => "!=" | lt => "<" | ltEq => "<=" | gt => ">" | gtEq => ">="
  | andAnd => "&&" | orOr => "||" | bang => "!" | arrow => "->"
  | plusEq => "+=" | minusEq => "-=" | starEq => "*=" | slashEq => "/="
  | error => "error" | eof => "end of file"

/-- Whether a declaration or statement begins with this token. Recovery from an error stops in front of one. -/
def startsStatement : TokenKind → Bool
  | kwFunc | kwVar | kwIf | kwWhile | kwFor | kwReturn | kwManaged | kwClass => true
  | _ => false

def keywords : List TokenKind :=
  [kwFunc, kwVar, kwReturn, kwIf, kwElse, kwWhile, kwFor, kwClass, kwManaged, kwNew,
    kwTrue, kwFalse, kwNull, kwBreak, kwContinue, kwIs]

def ofKeyword? (text : String) : Option TokenKind := keywords.find? (·.display == text)

theorem ofKeyword?_display {kind : TokenKind} (reserved : kind ∈ keywords) :
    ofKeyword? kind.display = some kind := by
  revert reserved
  cases kind <;> decide

end TokenKind

structure Token where
  kind : TokenKind
  lexeme : String
  line : Nat
  deriving DecidableEq, Repr, Inhabited

def Token.blank : Token := ⟨.eof, "", 0⟩

end NanScript
