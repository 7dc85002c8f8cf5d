import NanScript.Parser.Declaration
import NanScript.Proofs.Grammar
import NanScript.Proofs.Scope

/-!
# The tree of a text

What a text of the grammar stands for. Names are resolved in the scope they stand in, so the tree of a phrase depends on
a scope, and a statement has a scope behind it as well. Parentheses are gone, a compound assignment is an assignment of
an operation, and a `for` is a block with a loop.

The trees here are bare: every note is blank. `Tree.bare` takes the notes off a tree that has them.
-/

namespace NanScript

/-- The note of a node that nobody numbered. -/
def Note.blank : Note := ⟨0, 0⟩

namespace Tree

mutual

/-- The tree without its notes. -/
@[simp] def bare : Tree → Tree
  | int _ value => .int .blank value
  | float _ bits => .float .blank bits
  | bool _ value => .bool .blank value
  | null _ => .null .blank
  | str _ text => .str .blank text
  | array _ items => .array .blank (bareAll items)
  | var _ name symbol => .var .blank name symbol
  | assign _ name symbol value => .assign .blank name symbol value.bare
  | binary _ op left right => .binary .blank op left.bare right.bare
  | unary _ op operand => .unary .blank op operand.bare
  | ternary _ condition positive negative => .ternary .blank condition.bare positive.bare negative.bare
  | call _ callee arguments => .call .blank callee.bare (bareAll arguments)
  | get _ object name => .get .blank object.bare name
  | set _ object name value => .set .blank object.bare name value.bare
  | indexGet _ object index => .indexGet .blank object.bare index.bare
  | indexSet _ object index value => .indexSet .blank object.bare index.bare value.bare
  | new _ className => .new .blank className
  | varDecl _ name symbol managed initial => .varDecl .blank name symbol managed (bareOption initial)
  | block _ statements => .block .blank (bareAll statements)
  | ifElse _ condition positive negative => .ifElse .blank condition.bare positive.bare (bareOption negative)
  | whileLoop _ condition body step => .whileLoop .blank condition.bare body.bare (bareOption step)
  | ret _ value => .ret .blank (bareOption value)
  | breakLoop _ => .breakLoop .blank
  | continueLoop _ => .continueLoop .blank
  | funcDecl _ name sourceName parameters body => .funcDecl .blank name sourceName (bareAll parameters) body.bare
  | classDecl _ name methods => .classDecl .blank name (bareAll methods)

def bareAll : List Tree → List Tree
  | [] => []
  | tree :: rest => tree.bare :: bareAll rest

def bareOption : Option Tree → Option Tree
  | none => none
  | some tree => some tree.bare

end

@[simp] theorem bareAll_eq_map (trees : List Tree) : bareAll trees = trees.map bare := by
  induction trees with
  | nil => rfl
  | cons tree rest ih => rw [bareAll, ih, List.map_cons]

@[simp] theorem bareOption_eq_map (tree : Option Tree) : bareOption tree = tree.map bare := by
  cases tree <;> rfl

end Tree

namespace Grammar

/-! ### Expressions -/

/-- A compound assignment applies its operator to the variable first. -/
def AssignmentSign.tree (assignment : AssignmentSign) (name : String) (symbol : Symbol) (value : Tree) : Tree :=
  match assignment.op with
  | none => .assign .blank name symbol value
  | some op => .assign .blank name symbol (.binary .blank op (.var .blank name symbol) value)

namespace Phrase

mutual

/-- The tree of a phrase whose names are looked up in `scope`. -/
@[simp] def tree (scope : Scope) : Phrase → Tree
  | integer lexeme => .int .blank (integerValue lexeme)
  | float lexeme => .float .blank (Binary64.ofDecimal lexeme.toList)
  | string lexeme => .str .blank (Literal.unescape lexeme)
  | bool value => .bool .blank value
  | null => .null .blank
  | use name => .var .blank name (scope.resolve name)
  | new className => .new .blank className
  | group inner => inner.tree scope
  | array items => .array .blank (trees scope items)
  | unary op operand => .unary .blank op (operand.tree scope)
  | binary op left right => .binary .blank op (left.tree scope) (right.tree scope)
  | ternary _ condition positive negative =>
    .ternary .blank (condition.tree scope) (positive.tree scope) (negative.tree scope)
  | call callee arguments => .call .blank (callee.tree scope) (trees scope arguments)
  | get object name => .get .blank (object.tree scope) name
  | index object position => .indexGet .blank (object.tree scope) (position.tree scope)
  | assign target assignment value =>
    let name := target.target?.getD ""
    assignment.tree name (scope.resolve name) (value.tree scope)
  | set object name value => .set .blank (object.tree scope) name (value.tree scope)
  | setIndex object position value =>
    .indexSet .blank (object.tree scope) (position.tree scope) (value.tree scope)

def trees (scope : Scope) : List Phrase → List Tree
  | [] => []
  | phrase :: rest => phrase.tree scope :: trees scope rest

end

@[simp] theorem trees_eq_map (scope : Scope) (phrases : List Phrase) : trees scope phrases = phrases.map (tree scope) := by
  induction phrases with
  | nil => rfl
  | cons phrase rest ih => rw [trees, ih, List.map_cons]

end Phrase

/-! ### Statements -/

def Variable.build (scope : Scope) (var : Variable) : Tree × Scope :=
  (.varDecl .blank var.name scope.nextSymbol var.managed (var.initial.map (Phrase.tree (scope.declare var.name))),
    scope.bind var.name)

def ForInitial.build (scope : Scope) : ForInitial → Option Tree × Scope
  | nothing => (none, scope)
  | var name initial => let (tree, behind) := (Variable.mk false name initial).build scope; (some tree, behind)
  | expression phrase => (some (phrase.tree scope), scope)

/-- A missing condition is `true`. -/
def conditionTree (scope : Scope) : Option Phrase → Tree
  | none => .bool .blank true
  | some phrase => phrase.tree scope

namespace Statement

mutual

/-- The tree of a statement, and the scope behind it. -/
def build (scope : Scope) : Statement → Tree × Scope
  | expression phrase => (phrase.tree scope, scope)
  | declaration var => var.build scope
  | ifElse condition positive negative =>
    let (positiveTree, behind) := positive.build scope
    let (negativeTree, behind) := buildElse behind negative
    (.ifElse .blank (condition.tree scope) positiveTree negativeTree, behind)
  | whileLoop condition body =>
    let (tree, behind) := body.build scope
    (.whileLoop .blank (condition.tree scope) tree none, behind)
  | forLoop initial condition step body =>
    let (first, inner) := initial.build scope.enter
    let (tree, behind) := body.build inner
    let loop := .whileLoop .blank (conditionTree inner condition) tree (step.map (Phrase.tree inner))
    (.block .blank (first.toList ++ [loop]), behind.leave)
  | ret value => (.ret .blank (value.map (Phrase.tree scope)), scope)
  | breakLoop => (.breakLoop .blank, scope)
  | continueLoop => (.continueLoop .blank, scope)
  | block members =>
    let (trees, behind) := buildAll scope.enter members
    (.block .blank trees, behind.leave)

def buildElse (scope : Scope) : Option Statement → Option Tree × Scope
  | none => (none, scope)
  | some statement => let (tree, behind) := statement.build scope; (some tree, behind)

def buildAll (scope : Scope) : List Statement → List Tree × Scope
  | [] => ([], scope)
  | statement :: rest =>
    let (tree, behind) := statement.build scope
    let (trees, behind) := buildAll behind rest
    (tree :: trees, behind)

end

end Statement

/-! ### Programs -/

def buildParameter (scope : Scope) (name : String) : Tree × Scope :=
  (.var .blank name scope.nextSymbol, scope.bind name)

def buildParameters (scope : Scope) : List String → List Tree × Scope
  | [] => ([], scope)
  | name :: rest =>
    let (tree, behind) := buildParameter scope name
    let (trees, behind) := buildParameters behind rest
    (tree :: trees, behind)

theorem buildParameters_append (scope : Scope) (names names' : List String) :
    buildParameters scope (names ++ names') =
      ((buildParameters scope names).1 ++ (buildParameters (buildParameters scope names).2 names').1,
        (buildParameters (buildParameters scope names).2 names').2) := by
  induction names generalizing scope with
  | nil => rfl
  | cons name rest ih => simp [buildParameters, ih]

namespace Function

/-- The name of the code of a function or method. -/
def codeName (className : Option String) (function : Function) : String :=
  match className with
  | some owner => s!"{owner}_{function.name}"
  | none => if function.name = "main" then Parser.mainSymbol else function.name

/-- The parameter of a method that holds its object. -/
def receivers (className : Option String) : List String := className.toList.map fun _ => Parser.thisName

/-- All parameters: those of a method begin with its object. -/
def allParameters (className : Option String) (function : Function) : List String :=
  receivers className ++ function.parameters

def build (className : Option String) (scope : Scope) (function : Function) : Tree × Scope :=
  let (parameters, inner) := buildParameters scope.enter (function.allParameters className)
  let (body, behind) := (Statement.block function.body).build inner
  (.funcDecl .blank (function.codeName className) function.name parameters body, behind.leave)

def buildAll (className : Option String) (scope : Scope) : List Function → List Tree × Scope
  | [] => ([], scope)
  | function :: rest =>
    let (tree, behind) := function.build className scope
    let (trees, behind) := buildAll className behind rest
    (tree :: trees, behind)

end Function

def Declaration.build (scope : Scope) : Declaration → Tree × Scope
  | funcDecl function => function.build none scope
  | classDecl name methods =>
    let (trees, behind) := Function.buildAll (some name) scope methods
    (.classDecl .blank name trees, behind)
  | varDecl var => var.build scope

namespace Program

def build (scope : Scope) : Program → List Tree × Scope
  | [] => ([], scope)
  | declaration :: rest =>
    let (tree, behind) := declaration.build scope
    let (trees, behind) := build behind rest
    (tree :: trees, behind)

def trees (program : Program) : List Tree := (build Scope.initial program).1

end Program

end Grammar

end NanScript
