/-!
# Hexadecimal words
-/

namespace NanScript.Text

def hex64 (word : UInt64) : String :=
  let digits := String.ofList (Nat.toDigits 16 word.toNat)
  String.ofList (List.replicate (16 - digits.length) '0') ++ digits

def hex (number : Nat) : String := String.ofList (Nat.toDigits 16 number)

end NanScript.Text
