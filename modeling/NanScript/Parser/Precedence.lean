import NanScript.Token
import NanScript.Tree

/-!
# Precedence

How tightly operators bind, and which tokens are operators.
-/

namespace NanScript

inductive Precedence where
  | assignment | ternary | or | and | equality | comparison | term | factor | unary | call | primary
  deriving DecidableEq, Repr

namespace Precedence

def level : Precedence → Nat
  | assignment => 1
  | ternary => 2
  | or => 3
  | and => 4
  | equality => 5
  | comparison => 6
  | term => 7
  | factor => 8
  | unary => 9
  | call => 10
  | primary => 11

instance : LE Precedence := ⟨fun looser tighter => looser.level ≤ tighter.level⟩

instance (looser tighter : Precedence) : Decidable (looser ≤ tighter) :=
  inferInstanceAs (Decidable (looser.level ≤ tighter.level))

/-- One step tighter: the right operand of an operator that groups to the left. -/
def next : Precedence → Precedence
  | assignment => ternary
  | ternary => or
  | or => and
  | and => equality
  | equality => comparison
  | comparison => term
  | term => factor
  | factor => unary
  | unary => call
  | call | primary => primary

end Precedence

inductive Operator where
  | binary (op : BinaryOp)
  | ternary
  | call
  | index
  | dot
  deriving DecidableEq, Repr

namespace Operator

def precedence : Operator → Precedence
  | binary .or => .or
  | binary .and => .and
  | binary .eq | binary .notEq => .equality
  | binary .lt | binary .ltEq | binary .gt | binary .gtEq => .comparison
  | binary .add | binary .sub => .term
  | binary .mul | binary .div | binary .mod => .factor
  | ternary => .ternary
  | call | index | dot => .call

/-- The operator a token stands for. A ternary is written with a question mark or with `is`. -/
def ofToken? : TokenKind → Option Operator
  | .lparen => some call
  | .lbracket => some index
  | .dot => some dot
  | .plus => some (binary .add)
  | .minus => some (binary .sub)
  | .star => some (binary .mul)
  | .slash => some (binary .div)
  | .percent => some (binary .mod)
  | .eqEq => some (binary .eq)
  | .notEq => some (binary .notEq)
  | .lt => some (binary .lt)
  | .ltEq => some (binary .ltEq)
  | .gt => some (binary .gt)
  | .gtEq => some (binary .gtEq)
  | .andAnd => some (binary .and)
  | .orOr => some (binary .or)
  | .question | .kwIs => some ternary
  | _ => none

end Operator

/-- An assignment sign: plain, or with the operator it applies first. -/
def assignmentOp? : TokenKind → Option (Option BinaryOp)
  | .eq => some none
  | .plusEq => some (some .add)
  | .minusEq => some (some .sub)
  | .starEq => some (some .mul)
  | .slashEq => some (some .div)
  | _ => none

end NanScript
