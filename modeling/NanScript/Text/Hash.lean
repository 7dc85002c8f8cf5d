/-!
# A byte hash

The 32-bit FNV-1a hash of a byte sequence. The interner and the property tables of objects both start their
probing at it, so it stands apart from either.
-/

namespace NanScript.Text

def hashOffset : UInt32 := 2166136261

def hashPrime : UInt32 := 16777619

def hashByte (hash : UInt32) (byte : UInt8) : UInt32 := (hash ^^^ byte.toUInt32) * hashPrime

def hash (bytes : List UInt8) : UInt32 := bytes.foldl hashByte hashOffset

@[simp] theorem hash_nil : hash [] = hashOffset := rfl

def utf8 (text : String) : List UInt8 := text.toUTF8.data.toList

end NanScript.Text
