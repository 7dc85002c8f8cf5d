import NanScript.Text.Utf8
import NanScript.Token

/-!
# Scanning

A scanner goes through the bytes of a source text and never reads one twice. Each step skips the trivia in front (blanks and
both kinds of comment), then reads one token. Behind the end of the text all bytes are zero. Line feeds are counted where they
are met: between tokens, in block comments and in strings. The text of a token is cut out of the source, which works only
between characters.
-/

namespace NanScript

inductive LexicalError where
  | unterminatedString
  | unexpectedCharacter
  deriving DecidableEq, Repr

def LexicalError.message : LexicalError → String
  | unterminatedString => "Unterminated string."
  | unexpectedCharacter => "Unexpected character."

namespace Lexer

/-! ### Character classes -/

def isNameStart (c : Char) : Bool := c.isAlpha || c == '_'

def isNamePart (c : Char) : Bool := c.isAlphanum || c == '_'

def isHexDigit (c : Char) : Bool := c.isDigit || ('a' ≤ c && c ≤ 'f') || ('A' ≤ c && c ≤ 'F')

def isBinaryDigit (c : Char) : Bool := c == '0' || c == '1'

end Lexer

/-- A place in a source text: the bytes that are still to be read, the number of those in front of it, and the line. -/
structure Scanner where
  rest : List UInt8
  position : Nat := 0
  line : Nat := 1
  deriving DecidableEq, Repr

namespace Scanner

open Lexer

def ofText (source : String) : Scanner := { rest := source.toUTF8.data.toList }

/-! ### Bytes -/

def current (scanner : Scanner) : Char := Char.ofUInt8 (scanner.rest.headD 0)

def peek (scanner : Scanner) : Char := Char.ofUInt8 (scanner.rest.tail.headD 0)

/-- Go on by one byte. At the end nothing happens. -/
def advance (scanner : Scanner) : Scanner :=
  match scanner.rest with
  | [] => scanner
  | _ :: rest => { scanner with rest, position := scanner.position + 1 }

def advanceLine (scanner : Scanner) : Scanner := { scanner.advance with line := scanner.line + 1 }

/-- Go on by one byte if it is the expected one. -/
def eat? (expected : Char) (scanner : Scanner) : Option Scanner :=
  if scanner.rest ≠ [] ∧ scanner.current = expected then some scanner.advance else none

def eatWhile (holds : Char → Bool) (scanner : Scanner) : Scanner :=
  { scanner with
    rest := scanner.rest.dropWhile fun byte => holds (Char.ofUInt8 byte)
    position := scanner.position + (scanner.rest.takeWhile fun byte => holds (Char.ofUInt8 byte)).length }

def atBoundary (scanner : Scanner) : Bool := !Text.isContinuation (scanner.rest.headD 0)

/-- The text between two places. There is none if one of them is inside of a character. -/
def slice? (start stop : Scanner) : Option String :=
  if start.atBoundary && stop.atBoundary then
    String.fromUTF8? ⟨(start.rest.take (stop.position - start.position)).toArray⟩
  else none

theorem length_advance_le (scanner : Scanner) : scanner.advance.rest.length ≤ scanner.rest.length := by
  unfold advance
  split <;> simp_all

theorem length_advance_lt {scanner : Scanner} (hunread : scanner.rest ≠ []) :
    scanner.advance.rest.length < scanner.rest.length := by
  unfold advance
  split <;> simp_all

theorem length_eatWhile_le (holds : Char → Bool) (scanner : Scanner) :
    (scanner.eatWhile holds).rest.length ≤ scanner.rest.length :=
  (List.dropWhile_sublist _).length_le

/-! ### Trivia -/

/-- Go behind a block comment whose opening has been read. One that is never closed runs to the end. -/
def blockComment (scanner : Scanner) : Scanner :=
  if scanner.rest = [] then scanner
  else if scanner.current = '*' ∧ scanner.peek = '/' then scanner.advance.advance
  else if scanner.current = '\n' then blockComment scanner.advanceLine
  else blockComment scanner.advance
termination_by scanner.rest.length
decreasing_by all_goals exact length_advance_lt ‹_›

theorem length_blockComment_le (scanner : Scanner) : scanner.blockComment.rest.length ≤ scanner.rest.length := by
  fun_induction blockComment scanner with
  | case1 => exact Nat.le_refl _
  | case2 scanner => exact Nat.le_trans (length_advance_le _) (length_advance_le _)
  | case3 scanner _ _ _ ih | case4 scanner _ _ _ ih => exact Nat.le_trans ih (length_advance_le scanner)

/-- Go behind one blank or one comment, if there is any. The line feed that ends a line comment is left. -/
def skipOne? (scanner : Scanner) : Option Scanner :=
  match scanner.current with
  | ' ' | '\t' | '\r' => some scanner.advance
  | '\n' => some scanner.advanceLine
  | '/' =>
    match scanner.peek with
    | '/' => some (scanner.eatWhile (· != '\n'))
    | '*' => some scanner.advance.advance.blockComment
    | _ => none
  | _ => none

theorem unread_of_current {scanner : Scanner} {c : Char} (hcurrent : scanner.current = c) (hc : c ≠ '\x00') :
    scanner.rest ≠ [] := by
  intro hend
  rw [current, hend] at hcurrent
  exact hc hcurrent.symm

theorem length_skipOne? {scanner behind : Scanner} (hskip : scanner.skipOne? = some behind) :
    behind.rest.length < scanner.rest.length := by
  unfold skipOne? at hskip
  split at hskip
  case h_5 hcurrent =>
    have hunread := unread_of_current hcurrent (by decide)
    split at hskip
    · obtain rfl := Option.some.inj hskip
      obtain ⟨byte, rest, hrest⟩ := List.exists_cons_of_ne_nil hunread
      have hslash : Char.ofUInt8 byte = '/' := by rwa [current, hrest] at hcurrent
      simp only [eatWhile, hrest, List.dropWhile_cons, hslash]
      exact Nat.lt_succ_of_le (List.dropWhile_sublist _).length_le
    · obtain rfl := Option.some.inj hskip
      exact Nat.lt_of_le_of_lt (length_blockComment_le _) (Nat.lt_of_le_of_lt (length_advance_le _) (length_advance_lt hunread))
    · contradiction
  case h_6 => contradiction
  all_goals
    rename_i hcurrent
    obtain rfl := Option.some.inj hskip
    exact length_advance_lt (unread_of_current hcurrent (by decide))

def skipTrivia (scanner : Scanner) : Scanner :=
  match _h : scanner.skipOne? with
  | some behind => skipTrivia behind
  | none => scanner
termination_by scanner.rest.length
decreasing_by exact length_skipOne? _h

theorem length_skipTrivia_le (scanner : Scanner) : scanner.skipTrivia.rest.length ≤ scanner.rest.length := by
  fun_induction skipTrivia scanner with
  | case1 scanner behind hskip ih => exact Nat.le_trans ih (Nat.le_of_lt (length_skipOne? hskip))
  | case2 => exact Nat.le_refl _

/-! ### Tokens -/

/-- Go behind a string whose opening quote has been read, if it is closed, or else to the end. A backslash takes the byte behind
it along. -/
def string (scanner : Scanner) : Bool × Scanner :=
  if scanner.rest = [] then (false, scanner)
  else
    match scanner.current with
    | '"' => (true, scanner.advance)
    | '\n' => string scanner.advanceLine
    | '\\' => string (if scanner.advance.current = '\n' then scanner.advance.advanceLine else scanner.advance.advance)
    | _ => string scanner.advance
termination_by scanner.rest.length
decreasing_by
  · exact length_advance_lt ‹_›
  · refine Nat.lt_of_le_of_lt ?_ (length_advance_lt ‹_›)
    split <;> exact length_advance_le _
  · exact length_advance_lt ‹_›

/-- The token between two places, and the second of them. -/
def make? (start stop : Scanner) (kind : TokenKind) : Option (Token × Scanner) := do
  return (⟨kind, ← slice? start stop, stop.line⟩, stop)

def fail (stop : Scanner) (problem : LexicalError) : Token × Scanner := (⟨.error, problem.message, stop.line⟩, stop)

def name? (start scanner : Scanner) : Option (Token × Scanner) := do
  let stop := scanner.eatWhile isNamePart
  make? start stop ((TokenKind.ofKeyword? (← slice? start stop)).getD .identifier)

/-- A radix mark counts only with a digit of its radix behind it, a decimal point only with a digit behind it. -/
def number? (start scanner : Scanner) : Option (Token × Scanner) :=
  if start.current = '0' ∧ (scanner.current = 'x' ∨ scanner.current = 'X') ∧ isHexDigit scanner.peek then
    make? start (scanner.advance.eatWhile isHexDigit) .number
  else if start.current = '0' ∧ (scanner.current = 'b' ∨ scanner.current = 'B') ∧ isBinaryDigit scanner.peek then
    make? start (scanner.advance.eatWhile isBinaryDigit) .number
  else
    let whole := scanner.eatWhile Char.isDigit
    if whole.current = '.' ∧ whole.peek.isDigit then make? start (whole.advance.eatWhile Char.isDigit) .float
    else make? start whole .number

def withEqual? (start scanner : Scanner) (pair single : TokenKind) : Option (Token × Scanner) :=
  match scanner.eat? '=' with
  | some stop => make? start stop pair
  | none => make? start scanner single

def doubled? (start scanner : Scanner) (second : Char) (pair : TokenKind) : Option (Token × Scanner) :=
  match scanner.eat? second with
  | some stop => make? start stop pair
  | none => some (scanner.fail .unexpectedCharacter)

/-- Read a token at a place that has no trivia in front. At the end of the text that is `eof`, again and again. -/
def scan? (start : Scanner) : Option (Token × Scanner) :=
  if start.rest = [] then make? start start .eof
  else
    let scanner := start.advance
    if isNameStart start.current then name? start scanner
    else if start.current.isDigit then number? start scanner
    else match start.current with
      | '"' => if scanner.string.1 then make? start scanner.string.2 .string else some (scanner.string.2.fail .unterminatedString)
      | '(' => make? start scanner .lparen
      | ')' => make? start scanner .rparen
      | '\x7b' => make? start scanner .lbrace
      | '\x7d' => make? start scanner .rbrace
      | '[' => make? start scanner .lbracket
      | ']' => make? start scanner .rbracket
      | ';' => make? start scanner .semicolon
      | ',' => make? start scanner .comma
      | '.' => make? start scanner .dot
      | ':' => make? start scanner .colon
      | '?' => make? start scanner .question
      | '%' => make? start scanner .percent
      | '+' => withEqual? start scanner .plusEq .plus
      | '*' => withEqual? start scanner .starEq .star
      | '/' => withEqual? start scanner .slashEq .slash
      | '=' => withEqual? start scanner .eqEq .eq
      | '!' => withEqual? start scanner .notEq .bang
      | '<' => withEqual? start scanner .ltEq .lt
      | '>' => withEqual? start scanner .gtEq .gt
      | '-' =>
        match scanner.eat? '>' with
        | some stop => make? start stop .arrow
        | none => withEqual? start scanner .minusEq .minus
      | '&' => doubled? start scanner '&' .andAnd
      | '|' => doubled? start scanner '|' .orOr
      | _ => some ((scanner.eatWhile fun c => '\x80' ≤ c && c < '\xC0').fail .unexpectedCharacter)

def next? (scanner : Scanner) : Option (Token × Scanner) := scanner.skipTrivia.scan?

/-! ### A step consumes text -/

theorem length_string_le (scanner : Scanner) : scanner.string.2.rest.length ≤ scanner.rest.length := by
  fun_induction string scanner with
  | case1 => exact Nat.le_refl _
  | case2 scanner => exact length_advance_le _
  | case3 scanner _ _ ih | case5 scanner _ _ _ _ ih => exact Nat.le_trans ih (length_advance_le scanner)
  | case4 scanner _ _ ih =>
    refine Nat.le_trans ih (Nat.le_trans ?_ (length_advance_le scanner))
    split <;> exact length_advance_le _

/-- A place is left where no more than some number of bytes is to be read. -/
def Leaves (limit : Nat) (found : Option (Token × Scanner)) : Prop :=
  ∀ token stop, found = some (token, stop) → stop.rest.length ≤ limit

section

variable {start scanner : Scanner} {limit : Nat} (hlimit : scanner.rest.length ≤ limit)

include hlimit

theorem leaves_make? (kind : TokenKind) : Leaves limit (make? start scanner kind) := by
  intro token stop hmake
  simp only [make?, Option.bind_eq_bind, Option.bind_eq_some_iff, Option.pure_def, Option.some.injEq, Prod.mk.injEq] at hmake
  obtain ⟨text, -, -, rfl⟩ := hmake
  exact hlimit

theorem leaves_fail (problem : LexicalError) : Leaves limit (some (scanner.fail problem)) := by
  intro token stop hfail
  obtain ⟨-, rfl⟩ := Prod.mk.inj (Option.some.inj hfail)
  exact hlimit

theorem length_eatWhile_limit (holds : Char → Bool) : (scanner.eatWhile holds).rest.length ≤ limit :=
  Nat.le_trans (length_eatWhile_le holds scanner) hlimit

theorem length_advance_limit : scanner.advance.rest.length ≤ limit := Nat.le_trans (length_advance_le scanner) hlimit

theorem leaves_name? : Leaves limit (name? start scanner) := by
  intro token stop hname
  simp only [name?, Option.bind_eq_bind, Option.bind_eq_some_iff] at hname
  obtain ⟨text, -, hmake⟩ := hname
  exact leaves_make? (length_eatWhile_limit hlimit _) _ token stop hmake

theorem leaves_number? : Leaves limit (number? start scanner) := by
  unfold number?
  dsimp only
  split
  · exact leaves_make? (length_eatWhile_limit (length_advance_limit hlimit) _) _
  · split
    · exact leaves_make? (length_eatWhile_limit (length_advance_limit hlimit) _) _
    · split
      · exact leaves_make? (length_eatWhile_limit (length_advance_limit (length_eatWhile_limit hlimit _)) _) _
      · exact leaves_make? (length_eatWhile_limit hlimit _) _

theorem length_eat? {expected : Char} {stop : Scanner} (heat : scanner.eat? expected = some stop) : stop.rest.length ≤ limit := by
  unfold eat? at heat
  split at heat
  · obtain rfl := Option.some.inj heat
    exact length_advance_limit hlimit
  · contradiction

theorem leaves_withEqual? (pair single : TokenKind) : Leaves limit (withEqual? start scanner pair single) := by
  unfold withEqual?
  split
  · next heat => exact leaves_make? (length_eat? hlimit heat) _
  · exact leaves_make? hlimit _

theorem leaves_doubled? (second : Char) (pair : TokenKind) : Leaves limit (doubled? start scanner second pair) := by
  unfold doubled?
  split
  · next heat => exact leaves_make? (length_eat? hlimit heat) _
  · exact leaves_fail hlimit _

end

theorem leaves_scan? {start : Scanner} {limit : Nat} (hlimit : start.advance.rest.length ≤ limit) : Leaves limit (scan? start) := by
  unfold scan?
  split
  · next hend => exact leaves_make? (by rw [hend]; exact Nat.zero_le _) _
  · dsimp only
    split
    · exact leaves_name? hlimit
    · split
      · exact leaves_number? hlimit
      · split
        case h_1 =>
          have hstring := Nat.le_trans (length_string_le start.advance) hlimit
          split
          · exact leaves_make? hstring _
          · exact leaves_fail hstring _
        case h_21 =>
          split
          · next heat => exact leaves_make? (length_eat? hlimit heat) _
          · exact leaves_withEqual? hlimit _ _
        case h_24 => exact leaves_fail (length_eatWhile_limit hlimit _) _
        all_goals first | exact leaves_make? hlimit _ | exact leaves_withEqual? hlimit _ _ | exact leaves_doubled? hlimit _ _

theorem kind_of_make? {start stop behind : Scanner} {kind : TokenKind} {token : Token}
    (hmake : make? start stop kind = some (token, behind)) : token.kind = kind := by
  simp only [make?, Option.bind_eq_bind, Option.bind_eq_some_iff, Option.pure_def, Option.some.injEq, Prod.mk.injEq] at hmake
  obtain ⟨text, -, rfl, -⟩ := hmake
  rfl

theorem length_next? {scanner stop : Scanner} {token : Token} (hnext : scanner.next? = some (token, stop))
    (hmore : token.kind ≠ .eof) : stop.rest.length < scanner.rest.length := by
  by_cases hend : scanner.skipTrivia.rest = []
  · rw [next?, scan?, if_pos hend] at hnext
    exact absurd (kind_of_make? hnext) hmore
  · refine Nat.lt_of_lt_of_le ?_ (length_skipTrivia_le scanner)
    exact Nat.lt_of_le_of_lt (leaves_scan? (Nat.le_refl _) token stop hnext) (length_advance_lt hend)

end Scanner

/-- A scanner that remembers whether it has given the end mark. -/
structure Lexer where
  scanner : Scanner
  finished : Bool := false
  deriving DecidableEq, Repr

namespace Lexer

def ofText (source : String) : Lexer := { scanner := .ofText source }

/-- The next token. Behind the end mark there is none. -/
def next? (lexer : Lexer) : Option (Option Token × Lexer) :=
  if lexer.finished then some (none, lexer)
  else do
    let (token, scanner) ← lexer.scanner.next?
    return (some token, { scanner, finished := token.kind = .eof })

/-- How many bytes and end marks are left. -/
def left (lexer : Lexer) : Nat := if lexer.finished then 0 else lexer.scanner.rest.length + 1

theorem left_next? {lexer behind : Lexer} {token : Token} (hnext : lexer.next? = some (some token, behind)) :
    behind.left < lexer.left := by
  unfold next? at hnext
  split at hnext
  · simp at hnext
  · next hfinished =>
    simp only [Option.bind_eq_bind, Option.bind_eq_some_iff, Option.pure_def, Option.some.injEq, Prod.mk.injEq] at hnext
    obtain ⟨⟨found, scanner⟩, hscan, rfl, rfl⟩ := hnext
    rw [left, left, if_neg hfinished]
    split
    · exact Nat.succ_pos _
    · next hmore => exact Nat.succ_lt_succ (Scanner.length_next? hscan fun heof => hmore (decide_eq_true heof))

/-- All tokens that are left. -/
def collect? (lexer : Lexer) : Option (List Token × Lexer) :=
  match _h : lexer.next? with
  | none => none
  | some (none, behind) => some ([], behind)
  | some (some token, behind) => (collect? behind).map fun (tokens, last) => (token :: tokens, last)
termination_by lexer.left
decreasing_by exact left_next? _h

end Lexer

/-- The tokens of a text, with one `eof` as the last. -/
def tokens (source : String) : List Token := (Lexer.ofText source).collect?.elim [] Prod.fst

end NanScript
