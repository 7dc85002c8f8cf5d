import NanScript.Number.Decimal

/-!
# What literals denote

The scanner keeps the text of a literal. Here it is decoded: integers in three radixes, and strings with their escapes.
Floats are read by `Binary64.ofDecimal`.
-/

namespace NanScript.Literal

def integerBound : Nat := 0x8000000000000000

def radixDigits : List Char → Nat × List Char
  | '0' :: 'x' :: digits | '0' :: 'X' :: digits => (16, digits)
  | '0' :: 'b' :: digits | '0' :: 'B' :: digits => (2, digits)
  | digits => (10, digits)

def integer? (lexeme : String) : Option Nat :=
  let (radix, digits) := radixDigits lexeme.toList
  let value := Binary64.digitsValue radix digits
  if value < integerBound then some value else none

def escaped : Char → Char
  | 'n' => '\n'
  | 'r' => '\r'
  | 't' => '\t'
  | '0' => '\x00'
  | c => c

/-- One turn of decoding a string body: what it gives, and what is left. A backslash at the very end stands for nothing. -/
def decodeOne? : List Char → Option (List Char × List Char)
  | [] => none
  | ['\\'] => some ([], [])
  | '\\' :: c :: rest => some ([escaped c], rest)
  | c :: rest => some ([c], rest)

theorem length_decodeOne? {body given rest : List Char} (hturn : decodeOne? body = some (given, rest)) :
    rest.length < body.length := by
  unfold decodeOne? at hturn
  split at hturn <;> cases hturn
  · exact Nat.zero_lt_one
  · exact Nat.lt_succ_of_lt (Nat.lt_succ_self _)
  · exact Nat.lt_succ_self _

/-- Decode the escapes of a string body. -/
def unescapeBody (body : List Char) : List Char :=
  match _h : decodeOne? body with
  | none => []
  | some (given, rest) => given ++ unescapeBody rest
termination_by body.length
decreasing_by exact length_decodeOne? _h

def unquote : List Char → List Char
  | '"' :: rest => if rest.getLast? = some '"' then rest.dropLast else '"' :: rest
  | text => text

def unescape (lexeme : String) : String := String.ofList (unescapeBody (unquote lexeme.toList))

end NanScript.Literal
