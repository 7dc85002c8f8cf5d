/-!
# Symbols

What a variable name was found to mean where it stands.
-/

namespace NanScript

inductive Symbol where
  | global
  /-- Declared nowhere in sight: a function, a runtime name, or a variable declared below. -/
  | unresolved
  /-- A parameter or a local variable. Locals are numbered from one through the whole program. -/
  | localVar (id : Nat)
  deriving DecidableEq, Repr, Inhabited

namespace Symbol

def isGlobal : Symbol → Bool
  | global => true
  | _ => false

def isUnresolved : Symbol → Bool
  | unresolved => true
  | _ => false

def local? : Symbol → Option Nat
  | .localVar id => some id
  | _ => none

/-- One number for each symbol: locals are their own, the others are negative. -/
def code : Symbol → Int
  | global => -2
  | unresolved => -1
  | .localVar id => id

def ofCode (code : Int) : Symbol :=
  if code == -2 then global else if code < 0 then unresolved else .localVar code.toNat

def summary : Symbol → String
  | global => "SymbolId::GLOBAL"
  | unresolved => "SymbolId::UNRESOLVED"
  | .localVar id => s!"SymbolId({id})"

end Symbol

end NanScript
