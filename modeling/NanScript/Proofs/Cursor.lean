import NanScript.Token.Lexer

/-!
# Scanning by characters

The tokens of a text once more, now as a list of characters: `cut` says how many characters belong to the token at the front of
a text and what they are. Nothing else of the text is looked at, and the cut is never empty, so scanning ends after at most as
many steps as there are characters.
-/

namespace NanScript

namespace Lexer

/-! ### Trivia -/

inductive Gap where
  | blank
  | lineComment
  | blockComment
  deriving DecidableEq, Repr

/-- What is left behind the trivia at the front of a text. A block comment that is never closed runs to the end. -/
def skip : Gap → List Char → List Char
  | .blank, ' ' :: rest | .blank, '\t' :: rest | .blank, '\r' :: rest | .blank, '\n' :: rest => skip .blank rest
  | .blank, '/' :: '/' :: rest => skip .lineComment rest
  | .blank, '/' :: '*' :: rest => skip .blockComment rest
  | .blank, rest => rest
  | .lineComment, [] => []
  | .lineComment, '\n' :: rest => skip .blank rest
  | .lineComment, _ :: rest => skip .lineComment rest
  | .blockComment, [] => []
  | .blockComment, '*' :: '/' :: rest => skip .blank rest
  | .blockComment, _ :: rest => skip .blockComment rest

/-- The line reached behind the trivia at the front of a text that starts on `line`. -/
def skipLine : Gap → Nat → List Char → Nat
  | .blank, line, '\n' :: rest => skipLine .blank (line + 1) rest
  | .blank, line, ' ' :: rest | .blank, line, '\t' :: rest | .blank, line, '\r' :: rest => skipLine .blank line rest
  | .blank, line, '/' :: '/' :: rest => skipLine .lineComment line rest
  | .blank, line, '/' :: '*' :: rest => skipLine .blockComment line rest
  | .blank, line, _ => line
  | .lineComment, line, [] => line
  | .lineComment, line, '\n' :: rest => skipLine .blank (line + 1) rest
  | .lineComment, line, _ :: rest => skipLine .lineComment line rest
  | .blockComment, line, [] => line
  | .blockComment, line, '*' :: '/' :: rest => skipLine .blank line rest
  | .blockComment, line, '\n' :: rest => skipLine .blockComment (line + 1) rest
  | .blockComment, line, _ :: rest => skipLine .blockComment line rest

/-! ### Cutting one token -/

abbrev Verdict := Except LexicalError TokenKind

/-- The number of characters up to and with the quote that closes a string whose opening quote has been read. A
backslash keeps the next character from closing it. -/
def closeString : List Char → Nat → Option Nat
  | [], _ => none
  | '"' :: _, count => some (count + 1)
  | ['\\'], _ => none
  | '\\' :: _ :: rest, count => closeString rest (count + 2)
  | _ :: rest, count => closeString rest (count + 1)

/-- The number of characters of a number that starts with the digit `first`, and its kind. A radix mark counts only
with a digit of its radix behind it, a decimal point only with a digit behind it. -/
def cutNumber (first : Char) (rest : List Char) : Nat × TokenKind :=
  match first, rest with
  | '0', mark :: digit :: more =>
    if (mark == 'x' || mark == 'X') && isHexDigit digit then
      (2 + ((digit :: more).takeWhile isHexDigit).length, .number)
    else if (mark == 'b' || mark == 'B') && isBinaryDigit digit then
      (2 + ((digit :: more).takeWhile isBinaryDigit).length, .number)
    else decimal
  | _, _ => decimal
where
  decimal : Nat × TokenKind :=
    let whole := 1 + (rest.takeWhile Char.isDigit).length
    match rest.dropWhile Char.isDigit with
    | '.' :: digit :: more =>
      if digit.isDigit then (whole + 1 + ((digit :: more).takeWhile Char.isDigit).length, .float)
      else (whole, .number)
    | _ => (whole, .number)

def cutPair (second : Char) (pair single : Verdict) : List Char → Nat × Verdict
  | c :: _ => if c == second then (2, pair) else (1, single)
  | [] => (1, single)

/-- The number of characters of the token that starts with `first`, and what they are. -/
def cut (first : Char) (rest : List Char) : Nat × Verdict :=
  if isNameStart first then
    let name := first :: rest.takeWhile isNamePart
    (name.length, .ok ((TokenKind.ofKeyword? (String.ofList name)).getD .identifier))
  else if first.isDigit then
    let (count, kind) := cutNumber first rest
    (count, .ok kind)
  else match first with
    | '"' =>
      match closeString rest 1 with
      | some count => (count, .ok .string)
      | none => (rest.length + 1, .error .unterminatedString)
    | '(' => (1, .ok .lparen)
    | ')' => (1, .ok .rparen)
    | '\x7b' => (1, .ok .lbrace)
    | '\x7d' => (1, .ok .rbrace)
    | '[' => (1, .ok .lbracket)
    | ']' => (1, .ok .rbracket)
    | ';' => (1, .ok .semicolon)
    | ',' => (1, .ok .comma)
    | '.' => (1, .ok .dot)
    | ':' => (1, .ok .colon)
    | '?' => (1, .ok .question)
    | '%' => (1, .ok .percent)
    | '+' => cutPair '=' (.ok .plusEq) (.ok .plus) rest
    | '*' => cutPair '=' (.ok .starEq) (.ok .star) rest
    | '/' => cutPair '=' (.ok .slashEq) (.ok .slash) rest
    | '=' => cutPair '=' (.ok .eqEq) (.ok .eq) rest
    | '!' => cutPair '=' (.ok .notEq) (.ok .bang) rest
    | '<' => cutPair '=' (.ok .ltEq) (.ok .lt) rest
    | '>' => cutPair '=' (.ok .gtEq) (.ok .gt) rest
    | '-' =>
      match rest with
      | '>' :: _ => (2, .ok .arrow)
      | _ => cutPair '=' (.ok .minusEq) (.ok .minus) rest
    | '&' => cutPair '&' (.ok .andAnd) (.error .unexpectedCharacter) rest
    | '|' => cutPair '|' (.ok .orOr) (.error .unexpectedCharacter) rest
    | _ => (1, .error .unexpectedCharacter)

def Verdict.token (verdict : Verdict) (text : List Char) (line : Nat) : Token :=
  match verdict with
  | .ok kind => ⟨kind, String.ofList text, line⟩
  | .error problem => ⟨.error, problem.message, line⟩

end Lexer

/-- A place in a source text: what is still to be read, and the line it is on. -/
structure Cursor where
  rest : List Char
  line : Nat
  deriving DecidableEq, Repr

namespace Cursor

open Lexer

def ofText (source : String) : Cursor := ⟨source.toList, 1⟩

def skipTrivia (cursor : Cursor) : Cursor := ⟨skip .blank cursor.rest, skipLine .blank cursor.line cursor.rest⟩

/-- Read a token at a place that has no trivia in front. At the end of the text that is `eof`, again and again. -/
def scan (cursor : Cursor) : Token × Cursor :=
  match cursor.rest with
  | [] => (⟨.eof, "", cursor.line⟩, cursor)
  | first :: more =>
    let (count, verdict) := cut first more
    let text := (first :: more).take count
    let line := cursor.line + text.count '\n'
    (Verdict.token verdict text line, ⟨(first :: more).drop count, line⟩)

def next (cursor : Cursor) : Token × Cursor := cursor.skipTrivia.scan

end Cursor

namespace Lexer

/-! ### A step consumes text -/

theorem length_skip_le (gap : Gap) (text : List Char) : (skip gap text).length ≤ text.length := by
  fun_induction skip gap text <;> simp_all <;> omega

theorem closeString_pos {text : List Char} {count close : Nat} (hclose : closeString text count = some close) :
    0 < close := by
  fun_induction closeString text count <;> simp_all
  omega

theorem cutNumber_pos (first : Char) (rest : List Char) : 0 < (cutNumber first rest).1 := by
  unfold cutNumber cutNumber.decimal
  repeat' split
  all_goals simp only
  all_goals omega

theorem cutPair_pos (second : Char) (pair single : Verdict) (rest : List Char) :
    0 < (cutPair second pair single rest).1 := by
  unfold cutPair
  repeat' split
  all_goals simp

theorem cut_pos (first : Char) (rest : List Char) : 0 < (cut first rest).1 := by
  unfold cut
  split
  · simp
  · split
    · exact cutNumber_pos first rest
    · split
      all_goals first
        | exact cutPair_pos ..
        | skip
      · split
        · next hclose => exact closeString_pos hclose
        · simp
      all_goals simp
      · split
        · simp
        · exact cutPair_pos ..

end Lexer

namespace Cursor

theorem length_rest_scan_lt {cursor : Cursor} (hunread : cursor.rest ≠ []) :
    cursor.scan.2.rest.length < cursor.rest.length := by
  unfold scan
  split
  · contradiction
  · next first more hrest =>
    have hpositive := Lexer.cut_pos first more
    simp only [List.length_drop, List.length_cons, hrest]
    omega

/-- The tokens from a place to the end of the text, with one `eof` as the last. -/
def tokens (cursor : Cursor) : List Token :=
  let start := cursor.skipTrivia
  if start.rest = [] then [start.scan.1]
  else start.scan.1 :: tokens start.scan.2
termination_by cursor.rest.length
decreasing_by
  exact Nat.lt_of_lt_of_le (length_rest_scan_lt ‹_›) (Lexer.length_skip_le _ _)

end Cursor

end NanScript
