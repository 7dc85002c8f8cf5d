import NanScript.Interval
import NanScript.Tree

/-!
# Liveness of the locals of a function

A walk gives each node the next number, then visits its children in the order they are written. The walk keeps the
intervals met so far and the loops left so far. A declared variable is recorded before its initial value is walked, an
assigned one after; the number is that of the node in both cases. Functions and classes inside a body are not entered.
-/

namespace NanScript

structure Walk where
  next : Nat := 1
  intervals : List Interval := []
  loops : List LoopSpan := []
  deriving DecidableEq, Repr, Inhabited

namespace Walk

def record (walk : Walk) (symbol : Symbol) (index : Nat) : Walk :=
  match symbol.local? with
  | some var => { walk with intervals := Interval.record var index walk.intervals }
  | none => walk

def step (walk : Walk) : Walk := { walk with next := walk.next + 1 }

def leaveLoop (walk : Walk) (start : Nat) : Walk :=
  { walk with loops := walk.loops ++ [⟨start, walk.next - 1⟩] }

mutual

def visit (walk : Walk) (tree : Tree) : Walk :=
  match tree with
  | .int .. | .float .. | .bool .. | .null _ | .str .. | .new .. | .breakLoop _ | .continueLoop _
  | .funcDecl .. | .classDecl .. => walk.step
  | .array _ items => visitAll walk.step items
  | .var _ _ symbol => walk.step.record symbol walk.next
  | .assign _ _ symbol value => (visit walk.step value).record symbol walk.next
  | .varDecl _ _ symbol _ initial => visitOption (walk.step.record symbol walk.next) initial
  | .binary _ _ left right => visit (visit walk.step left) right
  | .unary _ _ operand => visit walk.step operand
  | .ternary _ condition positive negative => visit (visit (visit walk.step condition) positive) negative
  | .call _ callee arguments => visitAll (visit walk.step callee) arguments
  | .get _ object _ => visit walk.step object
  | .set _ object _ value => visit (visit walk.step object) value
  | .indexGet _ object index => visit (visit walk.step object) index
  | .indexSet _ object index value => visit (visit (visit walk.step object) index) value
  | .block _ statements => visitAll walk.step statements
  | .ifElse _ condition positive negative => visitOption (visit (visit walk.step condition) positive) negative
  | .whileLoop _ condition body step =>
    (visitOption (visit (visit walk.step condition) body) step).leaveLoop walk.next
  | .ret _ value => visitOption walk.step value

def visitAll (walk : Walk) (trees : List Tree) : Walk :=
  match trees with
  | [] => walk
  | tree :: rest => visitAll (visit walk tree) rest

def visitOption (walk : Walk) (tree : Option Tree) : Walk :=
  match tree with
  | none => walk
  | some tree => visit walk tree

end

/-- Parameters are in place from number zero on. -/
def recordParameter (walk : Walk) : Tree → Walk
  | .var _ _ symbol => walk.record symbol 0
  | _ => walk

def enter (parameters : List Tree) : Walk := parameters.foldl recordParameter {}

end Walk

def liveIntervals (parameters : List Tree) (body : Tree) : List Interval :=
  let walk := (Walk.enter parameters).visit body
  Interval.sort (Interval.settle walk.loops walk.intervals)

end NanScript
