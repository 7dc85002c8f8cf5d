import NanScript.Symbol

/-!
# Scopes

The names in sight while a program is read, innermost first. A scope is a depth; leaving it forgets every name declared
deeper. Depth zero holds the globals. Locals are numbered from one, and no number is given out twice.
-/

namespace NanScript

structure Binding where
  name : String
  depth : Nat
  symbol : Symbol
  /-- A local variable must not be read before its own initial value is known. -/
  initialized : Bool
  deriving DecidableEq, Repr

structure Scope where
  bindings : List Binding
  depth : Nat
  nextId : Nat
  deriving DecidableEq, Repr

namespace Scope

def initial : Scope := ⟨[], 0, 1⟩

def enter (scope : Scope) : Scope := { scope with depth := scope.depth + 1 }

def leave (scope : Scope) : Scope :=
  let depth := scope.depth - 1
  { scope with bindings := scope.bindings.dropWhile (depth < ·.depth), depth }

def declaredHere? (scope : Scope) (name : String) : Option Symbol :=
  ((scope.bindings.takeWhile (·.depth == scope.depth)).find? (·.name == name)).map (·.symbol)

def nextSymbol (scope : Scope) : Symbol := if scope.depth == 0 then .global else .localVar scope.nextId

/-- Declare a name in the innermost scope. A global counts as initialized at once. -/
def declare (scope : Scope) (name : String) : Scope :=
  { scope with
    bindings := ⟨name, scope.depth, scope.nextSymbol, scope.depth == 0⟩ :: scope.bindings
    nextId := if scope.depth == 0 then scope.nextId else scope.nextId + 1 }

def markInitialized (scope : Scope) : Scope :=
  match scope.bindings with
  | [] => scope
  | latest :: others => { scope with bindings := { latest with initialized := true } :: others }

def find? (scope : Scope) (name : String) : Option Binding := scope.bindings.find? (·.name == name)

def resolve (scope : Scope) (name : String) : Symbol := ((scope.find? name).map (·.symbol)).getD .unresolved

def isUninitialized (scope : Scope) (name : String) : Bool := (scope.find? name).any (!·.initialized)

end Scope

end NanScript
