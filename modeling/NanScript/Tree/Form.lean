import NanScript.Arena
import NanScript.Tree

/-!
# Flat nodes

A node as the arena keeps it: children are numbers, and a list of children is the number of its first member. The
arena of a parsed program holds every node the parser made, also those that recovery dropped from the tree.
-/

namespace NanScript

inductive Form where
  | int (value : Int)
  | float (bits : UInt64)
  | bool (value : Bool)
  | null
  | str (text : String)
  | array (first : Option NodeId) (count : Nat)
  | var (name : String) (symbol : Symbol)
  | assign (name : String) (symbol : Symbol) (value : NodeId)
  | binary (op : BinaryOp) (left right : NodeId)
  | unary (op : UnaryOp) (operand : NodeId)
  | ternary (condition positive negative : NodeId)
  | call (callee : NodeId) (first : Option NodeId) (count : Nat)
  | get (object : NodeId) (name : String)
  | set (object : NodeId) (name : String) (value : NodeId)
  | indexGet (object index : NodeId)
  | indexSet (object index value : NodeId)
  | new (className : String)
  | varDecl (name : String) (symbol : Symbol) (managed : Bool) (initial : Option NodeId)
  | block (first : Option NodeId)
  | ifElse (condition positive : NodeId) (negative : Option NodeId)
  | whileLoop (condition body : NodeId) (step : Option NodeId)
  | ret (value : Option NodeId)
  | breakLoop
  | continueLoop
  | funcDecl (name sourceName : String) (first : Option NodeId) (count : Nat) (body : NodeId)
  | classDecl (name : String) (first : Option NodeId)
  deriving DecidableEq, Repr, Inhabited

def Tree.headId (trees : List Tree) : Option NodeId := trees.head?.map Tree.id

def Tree.form : Tree → Form
  | int _ value => .int value
  | float _ bits => .float bits
  | bool _ value => .bool value
  | null _ => .null
  | str _ text => .str text
  | array _ items => .array (headId items) items.length
  | var _ name symbol => .var name symbol
  | assign _ name symbol value => .assign name symbol value.id
  | binary _ op left right => .binary op left.id right.id
  | unary _ op operand => .unary op operand.id
  | ternary _ condition positive negative => .ternary condition.id positive.id negative.id
  | call _ callee arguments => .call callee.id (headId arguments) arguments.length
  | get _ object name => .get object.id name
  | set _ object name value => .set object.id name value.id
  | indexGet _ object index => .indexGet object.id index.id
  | indexSet _ object index value => .indexSet object.id index.id value.id
  | new _ className => .new className
  | varDecl _ name symbol managed initial => .varDecl name symbol managed (initial.map Tree.id)
  | block _ statements => .block (headId statements)
  | ifElse _ condition positive negative => .ifElse condition.id positive.id (negative.map Tree.id)
  | whileLoop _ condition body step => .whileLoop condition.id body.id (step.map Tree.id)
  | ret _ value => .ret (value.map Tree.id)
  | breakLoop _ => .breakLoop
  | continueLoop _ => .continueLoop
  | funcDecl _ name sourceName parameters body =>
    .funcDecl name sourceName (headId parameters) parameters.length body.id
  | classDecl _ name methods => .classDecl name (headId methods)

def Form.children : Form → List NodeId
  | assign _ _ value => [value]
  | binary _ left right => [left, right]
  | unary _ operand => [operand]
  | ternary condition positive negative => [condition, positive, negative]
  | call callee _ _ => [callee]
  | get object _ => [object]
  | set object _ value => [object, value]
  | indexGet object index => [object, index]
  | indexSet object index value => [object, index, value]
  | varDecl _ _ _ initial => initial.toList
  | ifElse condition positive negative => condition :: positive :: negative.toList
  | whileLoop condition body step => condition :: body :: step.toList
  | ret value => value.toList
  | funcDecl _ _ _ _ body => [body]
  | _ => []

def Form.firstChild : Form → Option NodeId
  | array first _ | call _ first _ | block first | funcDecl _ _ first _ _ | classDecl _ first => first
  | _ => none

end NanScript
