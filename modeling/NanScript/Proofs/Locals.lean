import NanScript.Assembly.Program
import NanScript.Proofs.Nodes
import NanScript.Proofs.Parser.ProgramSound

/-!
# Locals in sight

The locals that a tree mentions have been declared around it. `ValueIn` says so of an expression and `StatementIn` of a
statement; in a block, a declared variable is in sight of the statements behind it, and of no other. Main statement: every
function that is parsed without a report has only its parameters in sight at the beginning of its body.
-/

namespace NanScript

open Function List

/-- If a name means a local, that local is in sight. -/
def Symbol.In (locals : List Nat) (symbol : Symbol) : Prop := ∀ id ∈ symbol.local?, id ∈ locals

namespace Tree

mutual

/-- An expression that mentions no local but those in sight. -/
def ValueIn (locals : List Nat) : Tree → Prop
  | int .. | float .. | bool .. | null _ | str .. | new .. => True
  | array _ items => AllValuesIn locals items
  | var _ _ symbol => symbol.In locals
  | assign _ _ symbol value => symbol.In locals ∧ value.ValueIn locals
  | binary _ _ left right => left.ValueIn locals ∧ right.ValueIn locals
  | unary _ _ operand => operand.ValueIn locals
  | ternary _ condition positive negative =>
    condition.ValueIn locals ∧ positive.ValueIn locals ∧ negative.ValueIn locals
  | call _ callee arguments => callee.ValueIn locals ∧ AllValuesIn locals arguments
  | get _ object _ => object.ValueIn locals
  | set _ object _ value => object.ValueIn locals ∧ value.ValueIn locals
  | indexGet _ object index => object.ValueIn locals ∧ index.ValueIn locals
  | indexSet _ object index value => object.ValueIn locals ∧ index.ValueIn locals ∧ value.ValueIn locals
  | _ => False

def AllValuesIn (locals : List Nat) : List Tree → Prop
  | [] => True
  | tree :: rest => tree.ValueIn locals ∧ AllValuesIn locals rest

end

/-- The local that a member of a block declares. -/
def declares : Tree → List Nat
  | varDecl _ _ symbol _ _ => symbol.local?.toList
  | _ => []

mutual

/-- A statement that mentions no local but those in sight, and those it declares itself. -/
def StatementIn (locals : List Nat) : Tree → Prop
  | varDecl _ _ _ _ initial => ∀ tree ∈ initial, tree.ValueIn locals
  | block _ statements => BodyIn locals statements
  | ifElse _ condition positive negative =>
    condition.ValueIn locals ∧ positive.StatementIn locals ∧ ElseIn locals negative
  | whileLoop _ condition body step =>
    condition.ValueIn locals ∧ body.StatementIn locals ∧ ∀ tree ∈ step, tree.ValueIn locals
  | ret _ value => ∀ tree ∈ value, tree.ValueIn locals
  | breakLoop _ | continueLoop _ => True
  | tree => tree.ValueIn locals

def ElseIn (locals : List Nat) : Option Tree → Prop
  | none => True
  | some tree => tree.StatementIn locals

def BodyIn (locals : List Nat) : List Tree → Prop
  | [] => True
  | tree :: rest => tree.StatementIn locals ∧ BodyIn (tree.declares ++ locals) rest

end

variable {locals : List Nat}

theorem allValuesIn_iff {trees : List Tree} : AllValuesIn locals trees ↔ ∀ tree ∈ trees, tree.ValueIn locals := by
  induction trees with
  | nil => simp [AllValuesIn]
  | cons tree rest ih => simp [AllValuesIn, ih]

theorem ValueIn.statementIn {tree : Tree} (hvalue : tree.ValueIn locals) : tree.StatementIn locals := by
  cases tree <;> first
    | exact hvalue
    | exact hvalue.elim

theorem ValueIn.declares {tree : Tree} (hvalue : tree.ValueIn locals) : tree.declares = [] := by
  cases tree <;> first
    | rfl
    | exact hvalue.elim

theorem ValueIn.child {tree : Tree} (hvalue : tree.ValueIn locals) : ∀ child ∈ tree.children, child.ValueIn locals := by
  cases tree <;> simp_all [ValueIn, children, allValuesIn_iff]

/-! ### Notes do not matter -/

theorem declares_bare (tree : Tree) : tree.bare.declares = tree.declares := by
  cases tree <;> rfl

theorem valueIn_bare (tree : Tree) : tree.bare.ValueIn locals ↔ tree.ValueIn locals := by
  induction tree using of_children with
  | hstep tree ih => cases tree <;> simp_all [ValueIn, children, allValuesIn_iff]

theorem optionValueIn_bare (tree : Option Tree) :
    (∀ given ∈ bareOption tree, given.ValueIn locals) ↔ ∀ given ∈ tree, given.ValueIn locals := by
  cases tree with
  | none => simp [bareOption]
  | some tree => simpa [bareOption] using valueIn_bare tree

theorem statementIn_bare (tree : Tree) : tree.bare.StatementIn locals ↔ tree.StatementIn locals := by
  have hbody {trees : List Tree} (htrees : ∀ tree ∈ trees, ∀ locals, tree.bare.StatementIn locals ↔ tree.StatementIn locals)
      (locals : List Nat) : BodyIn locals (trees.map bare) ↔ BodyIn locals trees := by
    induction trees generalizing locals with
    | nil => rfl
    | cons tree rest ih => simp_all [BodyIn, declares_bare]
  have helse {tree : Option Tree} (htree : ∀ given, tree = some given → ∀ locals, given.bare.StatementIn locals ↔ given.StatementIn locals)
      (locals : List Nat) : ElseIn locals (tree.map bare) ↔ ElseIn locals tree := by
    cases tree <;> simp_all [ElseIn]
  suffices hall : ∀ locals, tree.bare.StatementIn locals ↔ tree.StatementIn locals from hall locals
  induction tree using of_children with
  | hstep tree ih =>
    intro locals
    have hvalue := @valueIn_bare locals tree
    cases tree <;> first
      | exact hvalue
      | simp_all [StatementIn, children, valueIn_bare]

end Tree

/-! ### Scopes -/

namespace Scope

def locals (scope : Scope) : List Nat := scope.bindings.filterMap (·.symbol.local?)

theorem resolve_in (scope : Scope) (name : String) : (scope.resolve name).In scope.locals := by
  intro id hid
  unfold resolve at hid
  cases hfind : scope.find? name with
  | none =>
    rw [hfind] at hid
    contradiction
  | some binding =>
    rw [hfind] at hid
    exact mem_filterMap.2 ⟨binding, mem_of_find?_eq_some hfind, hid⟩

variable {scope : Scope}

theorem resolve_declare {declared name : String} (hother : name ≠ declared) :
    (scope.declare declared).resolve name = scope.resolve name := by
  unfold resolve find? declare
  rw [find?_cons_of_neg]
  simpa using hother.symm

theorem locals_bind (hnested : scope.depth ≠ 0) (name : String) :
    (scope.bind name).locals = scope.nextSymbol.local?.toList ++ scope.locals := by
  simp [locals, nextSymbol, hnested, Symbol.local?]

theorem locals_bind_global (htop : scope.depth = 0) (name : String) : (scope.bind name).locals = scope.locals := by
  simp [locals, nextSymbol, htop, Symbol.local?]

theorem locals_declare_global (htop : scope.depth = 0) (name : String) :
    (scope.declare name).locals = scope.locals := by
  simp [locals, declare, nextSymbol, htop, Symbol.local?]

theorem Extends.locals {outer inner : Scope} (h : Extends outer [] inner) : inner.locals = outer.locals := by
  obtain ⟨declared, hbindings, hnames, -⟩ := h.bindings
  obtain rfl : declared = [] := by simpa using hnames
  unfold Scope.locals
  rw [hbindings, nil_append]

/-- The scope is that of top-level declarations. -/
structure Outermost (scope : Scope) : Prop where
  steady : scope.Steady
  top : scope.depth = 0
  empty : scope.locals = []

theorem Outermost.extends {outer inner : Scope} (houter : outer.Outermost) (h : Extends outer [] inner) : inner.Outermost :=
  ⟨h.steady houter.steady, h.depth.trans houter.top, h.locals.trans houter.empty⟩

end Scope

namespace Grammar

open Scope NanScript.Tree

/-! ### Phrases -/

theorem Phrase.mem_names_of_target? {phrase : Phrase} {name : String} (htarget : phrase.target? = some name) :
    name ∈ phrase.names := by
  match phrase with
  | .use _ =>
    obtain rfl := Option.some.inj htarget
    exact mem_singleton_self _
  | .group grouped => exact @Phrase.mem_names_of_target? grouped _ htarget

namespace Phrase

theorem valueIn_tree {scope : Scope} {locals : List Nat} {phrase : Phrase} (hgrammatical : phrase.Grammatical)
    (hnames : ∀ name ∈ phrase.names, (scope.resolve name).In locals) : (phrase.tree scope).ValueIn locals := by
  induction phrase using of_parts with
  | hstep phrase ih =>
    have hparts : ∀ part ∈ phrase.parts, (part.tree scope).ValueIn locals := fun part hpart =>
      ih part hpart (hgrammatical.of_part hpart) fun name hname => hnames name (mem_names_of_part hpart hname)
    cases phrase with
    | assign target assignment value =>
      obtain ⟨name, hname⟩ := Option.isSome_iff_exists.1 hgrammatical.1
      have hresolved := hnames name (mem_append_left _ (mem_names_of_target? hname))
      have hvalue := hparts value mem_cons_self
      cases assignment <;> simp [hname, AssignmentSign.tree, AssignmentSign.op, ValueIn, hresolved, hvalue]
    | _ => simp_all [parts, ValueIn, allValuesIn_iff]

theorem valueIn_scope (scope : Scope) {phrase : Phrase} (hgrammatical : phrase.Grammatical) :
    (phrase.tree scope).ValueIn scope.locals :=
  valueIn_tree hgrammatical fun name _ => scope.resolve_in name

end Phrase

/-! ### Statements -/

variable {scope : Scope}

/-- In its own initial value a local is not in sight. -/
theorem Variable.statementIn_build {var : Variable} (hgrammatical : var.Grammatical)
    (hunmentioned : ∀ phrase ∈ var.initial, var.name ∉ phrase.names) :
    (var.build scope).1.StatementIn scope.locals := by
  intro tree htree
  obtain ⟨phrase, hphrase, rfl⟩ := Option.map_eq_some_iff.1 htree
  apply Phrase.valueIn_tree (hgrammatical phrase hphrase)
  intro name hname
  have hother : name ≠ var.name := by
    intro hsame
    exact hunmentioned phrase hphrase (hsame ▸ hname)
  rw [resolve_declare hother]
  exact scope.resolve_in name

theorem ForInitial.bodyIn_build {initial : ForInitial} (hnested : scope.depth ≠ 0) (hgrammatical : initial.Grammatical)
    (hadmissible : initial.Admissible) {loop : Tree} (hloop : loop.StatementIn (initial.build scope).2.locals) :
    BodyIn scope.locals ((initial.build scope).1.toList ++ [loop]) := by
  cases initial with
  | nothing => exact ⟨hloop, trivial⟩
  | var name initial =>
    have hvar : ((Variable.mk false name initial).build scope).1.StatementIn scope.locals :=
      @Variable.statementIn_build scope ⟨false, name, initial⟩ hgrammatical fun phrase hphrase =>
        (hadmissible.2 phrase hphrase).2
    refine ⟨hvar, ?_, trivial⟩
    change loop.StatementIn (scope.nextSymbol.local?.toList ++ scope.locals)
    rw [← locals_bind hnested name]
    exact hloop
  | expression phrase =>
    have hvalue := phrase.valueIn_scope scope hgrammatical
    refine ⟨hvalue.statementIn, ?_, trivial⟩
    rw [hvalue.declares]
    exact hloop

theorem conditionTree_valueIn {condition : Option Phrase} (hgrammatical : ∀ phrase ∈ condition, phrase.Grammatical) :
    (conditionTree scope condition).ValueIn scope.locals := by
  cases condition with
  | none => trivial
  | some phrase => exact phrase.valueIn_scope scope (hgrammatical phrase rfl)

theorem optionTree_valueIn {value : Option Phrase} (hgrammatical : ∀ phrase ∈ value, phrase.Grammatical) :
    ∀ tree ∈ value.map (Phrase.tree scope), tree.ValueIn scope.locals := by
  intro tree htree
  obtain ⟨phrase, hphrase, rfl⟩ := Option.map_eq_some_iff.1 htree
  exact phrase.valueIn_scope scope (hgrammatical phrase hphrase)

namespace Statement

theorem locals_build {scope : Scope} (hsteady : scope.Steady) (hnested : scope.depth ≠ 0) {statement : Statement}
    (hgrammatical : statement.Grammatical) :
    (statement.build scope).2.locals = (statement.build scope).1.declares ++ scope.locals := by
  cases statement with
  | declaration var => exact locals_bind hnested var.name
  | expression phrase =>
    have hvalue := phrase.valueIn_scope scope hgrammatical
    simp only [build]
    rw [hvalue.declares, nil_append]
  | _ =>
    exact (extends_build hsteady _ hgrammatical).locals

mutual

theorem statementIn_build {inLoop : Bool} {scope : Scope} (hsteady : scope.Steady) (hnested : scope.depth ≠ 0) :
    (statement : Statement) → statement.Grammatical → statement.Admissible inLoop →
      (statement.build scope).1.StatementIn scope.locals
  | expression phrase, hgrammatical, _ => (phrase.valueIn_scope scope hgrammatical).statementIn
  | declaration _, hgrammatical, ⟨_, hinitial⟩ =>
    Variable.statementIn_build hgrammatical fun phrase hphrase => (hinitial phrase hphrase).2
  | ifElse condition positive negative, ⟨hcondition, ⟨hplain, hpositive⟩, hnegative⟩, ⟨_, hpositive', hnegative'⟩ => by
    have hextends := extends_build hsteady positive hpositive
    rw [declared?_of_isPlain hplain] at hextends
    have hnegative'' := elseIn_buildElse (hextends.steady hsteady) (hextends.depth ▸ hnested) negative hnegative hnegative'
    rw [hextends.locals] at hnegative''
    exact ⟨condition.valueIn_scope scope hcondition, statementIn_build hsteady hnested positive hpositive hpositive',
      hnegative''⟩
  | whileLoop condition body, ⟨hcondition, _, hbody⟩, ⟨_, hbody'⟩ =>
    ⟨condition.valueIn_scope scope hcondition, statementIn_build hsteady hnested body hbody hbody', by simp⟩
  | forLoop initial condition step body, ⟨hinitial, hcondition, hstep, _, hbody⟩, ⟨hinitial', _, _, hbody'⟩ => by
    have hextends := initial.extends_build scope.enter
    have hdepth : (initial.build scope.enter).2.depth ≠ 0 := by
      rw [hextends.depth]
      simp
    have hbody'' := statementIn_build (hextends.steady hsteady.enter) hdepth body hbody hbody'
    change BodyIn scope.enter.locals ((initial.build scope.enter).1.toList ++ [.whileLoop .blank
      (conditionTree (initial.build scope.enter).2 condition) (body.build (initial.build scope.enter).2).1
      (step.map (Phrase.tree (initial.build scope.enter).2))])
    apply ForInitial.bodyIn_build (by simp) hinitial hinitial'
    exact ⟨conditionTree_valueIn hcondition, hbody'', optionTree_valueIn hstep⟩
  | ret value, hvalue, _ => optionTree_valueIn hvalue
  | breakLoop, _, _ => trivial
  | continueLoop, _, _ => trivial
  | block members, hmembers, ⟨_, hmembers'⟩ => bodyIn_buildAll hsteady.enter (by simp) members hmembers hmembers'

theorem elseIn_buildElse {inLoop : Bool} {scope : Scope} (hsteady : scope.Steady) (hnested : scope.depth ≠ 0) :
    (statement : Option Statement) → ElseGrammatical statement → ElseAdmissible inLoop statement →
      ElseIn scope.locals (buildElse scope statement).1
  | none, _, _ => trivial
  | some statement, ⟨_, hstatement⟩, hstatement' => statementIn_build hsteady hnested statement hstatement hstatement'

theorem bodyIn_buildAll {inLoop : Bool} {scope : Scope} (hsteady : scope.Steady) (hnested : scope.depth ≠ 0) :
    (statements : List Statement) → AllGrammatical statements → AllAdmissible inLoop statements →
      BodyIn scope.locals (buildAll scope statements).1
  | [], _, _ => trivial
  | statement :: rest, ⟨hstatement, hrest⟩, ⟨hstatement', hrest'⟩ => by
    have hextends := extends_build hsteady statement hstatement
    have hrest'' := bodyIn_buildAll (hextends.steady hsteady) (hextends.depth ▸ hnested) rest hrest hrest'
    rw [locals_build hsteady hnested hstatement] at hrest''
    exact ⟨statementIn_build hsteady hnested statement hstatement hstatement', hrest''⟩

end

end Statement

/-! ### Functions -/

end Grammar

def parameterLocals (parameters : List Tree) : List Nat :=
  parameters.flatMap fun
    | .var _ _ symbol => symbol.local?.toList
    | _ => []

theorem parameterLocals_bare (parameters : List Tree) :
    parameterLocals (parameters.map Tree.bare) = parameterLocals parameters := by
  induction parameters with
  | nil => rfl
  | cons parameter rest ih =>
    unfold parameterLocals at ih ⊢
    rw [map_cons, flatMap_cons, ih, flatMap_cons]
    cases parameter <;> rfl

/-- The locals of a function are its parameters and what is declared in it. -/
def FunctionIn (parameters : List Tree) (body : Tree) : Prop :=
  ∃ locals, body.StatementIn locals ∧ ∀ id ∈ locals, id ∈ parameterLocals parameters

/-- A declaration that mentions no local from outside. The initial value of a top-level variable mentions none at all. -/
def Tree.IsClosed : Tree → Prop
  | .funcDecl _ _ _ parameters body => FunctionIn parameters body
  | .varDecl _ _ _ _ initial => ∀ tree ∈ initial, tree.ValueIn []
  | _ => True

namespace Grammar

open Scope NanScript.Tree

variable {scope : Scope}

theorem mem_locals_buildParameters (hnested : scope.depth ≠ 0) (names : List String) {id : Nat}
    (hid : id ∈ (buildParameters scope names).2.locals) :
    id ∈ parameterLocals (buildParameters scope names).1 ∨ id ∈ scope.locals := by
  induction names generalizing scope with
  | nil => exact .inr hid
  | cons name rest ih =>
    have hparameter : parameterLocals (buildParameters scope (name :: rest)).1 =
        scope.nextSymbol.local?.toList ++ parameterLocals (buildParameters (scope.bind name) rest).1 := rfl
    rw [hparameter]
    rcases @ih (scope.bind name) hnested hid with hid | hid
    · exact .inl (mem_append_right _ hid)
    · rw [locals_bind hnested] at hid
      rcases mem_append.1 hid with hid | hid
      · exact .inl (mem_append_left _ hid)
      · exact .inr hid

theorem Function.isClosed_build (hsteady : scope.Steady) (hempty : scope.locals = []) {className : Option String}
    {function : Function} (hgrammatical : Statement.AllGrammatical function.body)
    (hadmissible : function.Admissible className) : (function.build className scope).1.IsClosed := by
  have hextends := extends_buildParameters scope.enter (function.allParameters className)
  have hdepth : (buildParameters scope.enter (function.allParameters className)).2.depth ≠ 0 := by
    rw [hextends.depth]
    simp
  refine ⟨(buildParameters scope.enter (function.allParameters className)).2.locals, ?_, ?_⟩
  · exact Statement.statementIn_build (hextends.steady hsteady.enter) hdepth (.block function.body) hgrammatical
      hadmissible.2.2.2.2
  · intro id hid
    rcases mem_locals_buildParameters (by simp) _ hid with hid | hid
    · exact hid
    · rw [show scope.enter.locals = [] from hempty] at hid
      contradiction

/-- What is declared at the top level, as it was built in a scope. -/
inductive Built (scope : Scope) : Tree → Prop
  | function {className : Option String} {function : Function} (hgrammatical : Statement.AllGrammatical function.body)
      (hadmissible : function.Admissible className) : Built scope (function.build className scope).1
  | global {var : Variable} (hgrammatical : var.Grammatical) : Built scope (var.build scope).1

/-- At the top level no local is in sight, so every function closes over its own parameters only. -/
theorem Built.isClosed (houter : scope.Outermost) {tree : Tree} (hbuilt : Built scope tree) : tree.IsClosed := by
  cases hbuilt with
  | function hgrammatical hadmissible => exact Function.isClosed_build houter.steady houter.empty hgrammatical hadmissible
  | @global var hgrammatical =>
    intro tree htree
    obtain ⟨phrase, hphrase, rfl⟩ := Option.map_eq_some_iff.1 htree
    have hvalue := phrase.valueIn_scope (scope.declare var.name) (hgrammatical phrase hphrase)
    rwa [locals_declare_global houter.top, houter.empty] at hvalue

theorem Function.exists_built (houter : scope.Outermost) {className : Option String} {functions : List Function}
    (hgrammatical : ∀ function ∈ functions, Statement.AllGrammatical function.body)
    (hadmissible : ∀ function ∈ functions, function.Admissible className) {tree : Tree}
    (htree : tree ∈ (buildAll className scope functions).1) : ∃ scope : Scope, scope.Outermost ∧ Built scope tree := by
  induction functions generalizing scope with
  | nil => contradiction
  | cons function rest ih =>
    obtain ⟨hfunction, hrest⟩ := forall_mem_cons.1 hgrammatical
    obtain ⟨hfunction', hrest'⟩ := forall_mem_cons.1 hadmissible
    rcases mem_cons.1 htree with rfl | htree
    · exact ⟨scope, houter, .function hfunction hfunction'⟩
    · exact ih (houter.extends (extends_build houter.steady className function hfunction)) hrest hrest' htree

theorem Program.exists_built (houter : scope.Outermost) {program : Program} (hgrammatical : program.Grammatical)
    (hadmissible : ∀ declaration ∈ program, declaration.Admissible) {tree : Tree}
    (htree : tree ∈ functionDeclarations (program.build scope).1) : ∃ scope : Scope, scope.Outermost ∧ Built scope tree := by
  induction program generalizing scope with
  | nil => contradiction
  | cons declaration rest ih =>
    obtain ⟨hdeclaration, hrest⟩ := forall_mem_cons.1 hgrammatical
    obtain ⟨hdeclaration', hrest'⟩ := forall_mem_cons.1 hadmissible
    have hextends := declaration.extends_build houter.steady hdeclaration
    rcases mem_append.1 htree with htree | htree
    · cases declaration with
      | funcDecl function =>
        obtain rfl := mem_singleton.1 htree
        exact ⟨scope, houter, .function hdeclaration hdeclaration'⟩
      | classDecl name methods => exact Function.exists_built houter hdeclaration hdeclaration'.2 htree
      | varDecl var =>
        obtain rfl := mem_singleton.1 htree
        exact ⟨scope, houter, .global hdeclaration⟩
    · refine ih ?_ hrest hrest' htree
      cases declaration with
      | funcDecl | classDecl => exact houter.extends hextends
      | varDecl var =>
        exact ⟨hextends.steady houter.steady, hextends.depth.trans houter.top, (locals_bind_global houter.top var.name).trans houter.empty⟩

end Grammar

/-! ### Parsed programs -/

theorem functionDeclarations_bare (program : List Tree) :
    functionDeclarations (program.map Tree.bare) = (functionDeclarations program).map Tree.bare := by
  induction program with
  | nil => rfl
  | cons tree rest ih =>
    unfold functionDeclarations at ih ⊢
    rw [map_cons, flatMap_cons, ih, flatMap_cons, map_append]
    cases tree <;> simp [Tree.bare]

theorem isClosed_bare (tree : Tree) : tree.bare.IsClosed ↔ tree.IsClosed := by
  cases tree with
  | funcDecl _ _ _ parameters body =>
    show FunctionIn (Tree.bareAll parameters) body.bare ↔ _
    unfold FunctionIn
    rw [Tree.bareAll_eq_map, parameterLocals_bare]
    exact exists_congr fun _ => and_congr (Tree.statementIn_bare body) Iff.rfl
  | varDecl _ _ _ _ initial => exact Tree.optionValueIn_bare initial
  | _ => exact Iff.rfl

variable {source : String}

theorem exists_built_of_parse (hsilent : (parse source).errors = []) {tree : Tree}
    (htree : tree ∈ functionDeclarations (parse source).program) :
    ∃ scope : Scope, scope.Outermost ∧ Grammar.Built scope tree.bare := by
  obtain ⟨program, -, hgrammatical, hadmissible, htrees⟩ := parse_sound hsilent
  refine Grammar.Program.exists_built ⟨Scope.steady_initial, rfl, rfl⟩ hgrammatical hadmissible.2 ?_
  rw [← Grammar.Program.trees, ← htrees, functionDeclarations_bare]
  exact mem_map_of_mem htree

theorem isClosed_of_parse (hsilent : (parse source).errors = []) {tree : Tree}
    (htree : tree ∈ functionDeclarations (parse source).program) : tree.IsClosed := by
  obtain ⟨scope, houter, hbuilt⟩ := exists_built_of_parse hsilent htree
  exact (isClosed_bare tree).1 (hbuilt.isClosed houter)

/-- In a program that is parsed without a report every local is in sight where it is mentioned. -/
theorem functionIn_of_parse (hsilent : (parse source).errors = []) {note : Note} {name sourceName : String}
    {parameters : List Tree} {body : Tree}
    (hfunction : Tree.funcDecl note name sourceName parameters body ∈ functionDeclarations (parse source).program) :
    FunctionIn parameters body := isClosed_of_parse hsilent hfunction

end NanScript
