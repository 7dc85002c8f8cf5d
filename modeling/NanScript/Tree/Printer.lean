import NanScript.Text.Hex
import NanScript.Text.Quoted
import NanScript.Tree.Form

/-!
# Printing the nodes of an arena

A node as a nested list in parentheses: its kind and line, then its fields. A missing child is a dash, a list of
children stands in brackets.
-/

namespace NanScript

def BinaryOp.label : BinaryOp → String
  | add => "Add" | sub => "Sub" | mul => "Mul" | div => "Div" | mod => "Mod"
  | eq => "Eq" | notEq => "NotEq" | lt => "Lt" | ltEq => "LtEq" | gt => "Gt" | gtEq => "GtEq"
  | and => "And" | or => "Or"

def UnaryOp.label : UnaryOp → String
  | neg => "Neg"
  | not => "Not"

def Form.label : Form → String
  | int .. => "Int" | float .. => "Float" | bool .. => "Bool" | null .. => "Null" | str .. => "Str"
  | array .. => "Array" | var .. => "Var" | assign .. => "Assign" | binary .. => "Binary" | unary .. => "Unary"
  | ternary .. => "Ternary" | call .. => "Call" | get .. => "Get" | set .. => "Set" | indexGet .. => "IndexGet"
  | indexSet .. => "IndexSet" | new .. => "New" | varDecl .. => "VarDecl" | block .. => "Block" | ifElse .. => "If"
  | whileLoop .. => "While" | ret .. => "Return" | breakLoop .. => "Break" | continueLoop .. => "Continue"
  | funcDecl .. => "FuncDecl" | classDecl .. => "ClassDecl"

namespace Arena

open Text (quoted hex64)

/-- The fields of a node, given how a child, a child that may be missing and a list of children are printed. -/
def fields (child : NodeId → Option String) (optional list : Option NodeId → Option String) :
    Form → Option (List String)
  | .int value => some [toString value]
  | .float bits => some [hex64 bits]
  | .bool value => some [toString value]
  | .null | .breakLoop | .continueLoop => some []
  | .str text => some [quoted text]
  | .array first count => do return [toString count, ← list first]
  | .var name symbol => some [quoted name, toString symbol.code]
  | .assign name symbol value => do return [quoted name, toString symbol.code, ← child value]
  | .binary op left right => do return [op.label, ← child left, ← child right]
  | .unary op operand => do return [op.label, ← child operand]
  | .ternary condition positive negative => do return [← child condition, ← child positive, ← child negative]
  | .call callee first count => do return [← child callee, toString count, ← list first]
  | .get object name => do return [← child object, quoted name]
  | .set object name value => do return [← child object, quoted name, ← child value]
  | .indexGet object index => do return [← child object, ← child index]
  | .indexSet object index value => do return [← child object, ← child index, ← child value]
  | .new className => some [quoted className]
  | .varDecl name symbol managed initial =>
    do return [quoted name, toString symbol.code, toString managed, ← optional initial]
  | .block first => do return [← list first]
  | .ifElse condition positive negative => do return [← child condition, ← child positive, ← optional negative]
  | .whileLoop condition body step => do return [← child condition, ← child body, ← optional step]
  | .ret value => do return [← optional value]
  | .funcDecl name sourceName first count body =>
    do return [quoted name, quoted sourceName, toString count, ← list first, ← child body]
  | .classDecl name first => do return [quoted name, ← list first]

/-- Print a node and what is below it, `depth` levels at most. -/
def renderBelow (arena : Arena Form) : Nat → NodeId → Option String
  | 0, _ => none
  | depth + 1, id => do
    let node ← arena.get? id
    let child := arena.renderBelow depth
    let optional : Option NodeId → Option String
      | none => some "-"
      | some id => child id
    let list (first : Option NodeId) : Option String := do
      let members ← arena.siblings arena.size first
      return "[" ++ " ".intercalate (← members.mapM child) ++ "]"
    let fields ← fields child optional list node.kind
    return "(" ++ " ".intercalate (s!"{node.kind.label}@{node.line}" :: fields) ++ ")"

/-- Print a node and everything below it. There is no text if a child or a sibling is no node of the arena. -/
def render? (arena : Arena Form) (id : NodeId) : Option String := arena.renderBelow arena.size id

end Arena

end NanScript
