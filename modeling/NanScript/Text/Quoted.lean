/-!
# Quoted text

A text between double quotes. Quotes, backslashes and control characters are escaped, everything else stands for
itself.
-/

namespace NanScript.Text

def hex4 (number : Nat) : List Char :=
  [12, 8, 4, 0].map fun shift => Nat.digitChar (number >>> shift % 16)

def escapeChar : Char → List Char
  | '"' => ['\\', '"']
  | '\\' => ['\\', '\\']
  | '\n' => ['\\', 'n']
  | '\r' => ['\\', 'r']
  | '\t' => ['\\', 't']
  | '\x08' => ['\\', 'b']
  | '\x0c' => ['\\', 'f']
  | c => if c.toNat < 32 then '\\' :: 'u' :: hex4 c.toNat else [c]

def quoted (text : String) : String := "\"" ++ String.ofList (text.toList.flatMap escapeChar) ++ "\""

end NanScript.Text
