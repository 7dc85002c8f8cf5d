import NanScript.Proofs.Grammar.Meaning
import NanScript.Proofs.Nodes

/-!
# The words of the grammar

A token of the kind `error` stands for characters that are no token: no text of the grammar has such a word. The string literals
of a text are the string nodes of its trees, with the texts that they denote.
-/

namespace NanScript

namespace Tree

variable {property : String → Prop}

/-- If the node is a string, its text has a property. -/
def Speaks (property : String → Prop) (tree : Tree) : Prop := ∀ note content, tree = .str note content → property content

/-- The texts of all strings have a property. -/
def AllSpeak (property : String → Prop) (nodes : List Tree) : Prop := ∀ node ∈ nodes, node.Speaks property

@[simp] theorem allSpeak_nil : AllSpeak property [] := by simp [AllSpeak]

@[simp] theorem allSpeak_cons {node : Tree} {nodes : List Tree} :
    AllSpeak property (node :: nodes) ↔ node.Speaks property ∧ AllSpeak property nodes := List.forall_mem_cons

@[simp] theorem allSpeak_append {nodes nodes' : List Tree} :
    AllSpeak property (nodes ++ nodes') ↔ AllSpeak property nodes ∧ AllSpeak property nodes' := List.forall_mem_append

theorem children_bare (tree : Tree) : tree.bare.children = tree.children.map bare := by
  cases tree <;> simp [children, Option.toList_map]

theorem each_speaks_bare (tree : Tree) : tree.bare.Each (Speaks property) ↔ tree.Each (Speaks property) := by
  induction tree using of_children with
  | hstep tree ih =>
    have hself : tree.bare.Speaks property ↔ tree.Speaks property := by cases tree <;> simp [Speaks]
    rw [each_iff, each_iff, hself, children_bare, List.forall_mem_map]
    exact and_congr_right fun _ => forall₂_congr ih

end Tree

namespace Grammar

open NanScript.Tree

attribute [local simp] nodes Tree.inner Speaks and_assoc

variable {property : String → Prop}

/-- No word stands for a lexical error, and the texts of all string literals have a property. -/
def Fine (property : String → Prop) (words : List Word) : Prop :=
  ∀ word ∈ words, word.kind ≠ .error ∧ (word.kind = .string → property (Literal.unescape word.text))

section

variable {words words' : List Word}

@[simp] theorem fine_nil : Fine property [] := by simp [Fine]

@[simp] theorem fine_cons {word : Word} : Fine property (word :: words) ↔
    (word.kind ≠ .error ∧ (word.kind = .string → property (Literal.unescape word.text))) ∧ Fine property words := by
  simp [Fine]

@[simp] theorem fine_append : Fine property (words ++ words') ↔ Fine property words ∧ Fine property words' :=
  List.forall_mem_append

end

@[simp] theorem kind_identifier (name : String) : (identifier name).kind = .identifier := rfl

namespace Phrase

theorem fine_tail {phrases : List Phrase} :
    Fine property (commaWords phrases).tail ↔ Fine property (commaWords phrases) := by
  cases phrases <;> simp

theorem fine_target {phrase : Phrase} (htarget : phrase.target?.isSome) : Fine property phrase.words := by
  induction phrase using target?.induct with
  | case1 name => simp
  | case2 inner ih => simpa using ih htarget
  | case3 phrase huse hgroup => simp [target?] at htarget

mutual

theorem fine_words (scope : Scope) : (phrase : Phrase) → phrase.Grammatical →
    (Fine property phrase.words ↔ AllSpeak property (phrase.tree scope).nodes)
  | integer _, _ | float _, _ | string _, _ | null, _ | use _, _ | new _, _ => by simp
  | bool value, _ => by cases value <;> simp
  | group grouped, h => by simp [fine_words scope grouped h]
  | array items, h => by simp [fine_tail, fine_commaWords scope items h]
  | unary op operand, h => by cases op <;> simp [UnaryOp.sign, fine_words scope operand h.2]
  | binary op left right, h => by
    cases op <;> simp [BinaryOp.sign, fine_words scope left h.1.2, fine_words scope right h.2.2]
  | ternary mark condition positive negative, h => by
    cases mark <;> simp [TernaryMark.kind, fine_words scope condition h.1.2, fine_words scope positive h.2.1.2,
      fine_words scope negative h.2.2.2]
  | call callee arguments, h => by simp [fine_tail, fine_words scope callee h.1.2, fine_commaWords scope arguments h.2]
  | get object _, h => by simp [fine_words scope object h.2]
  | index object position, h => by simp [fine_words scope object h.1.2, fine_words scope position h.2]
  | assign target assignment value, h => by
    cases assignment <;> simp [AssignmentSign.kind, AssignmentSign.tree, AssignmentSign.op, fine_target h.1,
      fine_words scope value h.2]
  | set object _ value, h => by simp [fine_words scope object h.1.2, fine_words scope value h.2]
  | setIndex object position value, h => by
    simp [fine_words scope object h.1.2, fine_words scope position h.2.1, fine_words scope value h.2.2]

theorem fine_commaWords (scope : Scope) : (phrases : List Phrase) → AllGrammatical phrases →
    (Fine property (commaWords phrases) ↔ AllSpeak property (allNodes (trees scope phrases)))
  | [], _ => by simp [trees, allNodes]
  | phrase :: rest, h => by
    simp [trees, allNodes, fine_words scope phrase h.1, fine_commaWords scope rest h.2]

end

end Phrase

theorem fine_optionWords (scope : Scope) {before : List Word} (hbefore : Fine property before) {phrase : Option Phrase}
    (h : ∀ given ∈ phrase, given.Grammatical) : Fine property (optionWords before phrase) ↔
      AllSpeak property (optionNodes (phrase.map (Phrase.tree scope))) := by
  cases phrase with
  | none => simp [optionWords, optionNodes]
  | some phrase => simp [optionWords, optionNodes, hbefore, phrase.fine_words scope (h phrase rfl)]

theorem Variable.fine_words (scope : Scope) {target : Variable} (h : target.Grammatical) :
    Fine property target.words ↔ AllSpeak property (target.build scope).1.nodes := by
  have hinitial : Fine property (optionWords [sign .eq] target.initial) ↔ _ :=
    fine_optionWords (scope.declare target.name) (by simp) h
  cases hmanaged : target.managed <;> simp [words, tailWords, hmanaged, hinitial, build]

theorem ForInitial.fine_words (scope : Scope) {initial : ForInitial} (h : initial.Grammatical) :
    Fine property initial.words ↔ AllSpeak property (optionNodes (initial.build scope).1) := by
  cases initial with
  | nothing => simp [words, build, optionNodes]
  | var name initial => exact Variable.fine_words scope h
  | expression phrase => simp [words, build, optionNodes, phrase.fine_words scope h]

namespace Statement

mutual

theorem fine_words : (statement : Statement) → statement.Grammatical → ∀ scope,
    (Fine property statement.words ↔ AllSpeak property (statement.build scope).1.nodes)
  | expression phrase, h, scope => by simp [build, phrase.fine_words scope h]
  | declaration target, h, scope => Variable.fine_words scope h
  | ifElse condition positive negative, h, scope => by
    simp [build, condition.fine_words scope h.1, fine_words positive h.2.1.2 scope,
      fine_elseWords negative h.2.2 (positive.build scope).2]
  | whileLoop condition body, h, scope => by
    simp [build, optionNodes, condition.fine_words scope h.1, fine_words body h.2.2 scope]
  | forLoop initial condition step body, h, scope => by
    have hcondition : Fine property (optionWords [] condition) ↔
        AllSpeak property (conditionTree (initial.build scope.enter).2 condition).nodes := by
      cases condition with
      | none => simp [optionWords, conditionTree]
      | some phrase => exact phrase.fine_words _ (h.2.1 phrase rfl)
    have hstep : Fine property (optionWords [] step) ↔ _ := fine_optionWords (initial.build scope.enter).2 fine_nil h.2.2.1
    simp [build, allNodes_eq, ← optionNodes_eq, ForInitial.fine_words scope.enter h.1, hcondition, hstep,
      fine_words body h.2.2.2.2 (initial.build scope.enter).2, and_left_comm, and_comm]
  | ret value, h, scope => by simp [build, fine_optionWords scope fine_nil h]
  | breakLoop, _, _ | continueLoop, _, _ => by simp [build]
  | block members, h, scope => by simp [build, fine_allWords members h scope.enter]

theorem fine_elseWords : (statement : Option Statement) → ElseGrammatical statement → ∀ scope,
    (Fine property (elseWords statement) ↔ AllSpeak property (optionNodes (buildElse scope statement).1))
  | none, _, _ => by simp [elseWords, buildElse, optionNodes]
  | some statement, h, scope => by simp [elseWords, buildElse, optionNodes, fine_words statement h.2 scope]

theorem fine_allWords : (statements : List Statement) → AllGrammatical statements → ∀ scope,
    (Fine property (allWords statements) ↔ AllSpeak property (allNodes (buildAll scope statements).1))
  | [], _, _ => by simp [allWords, buildAll, allNodes]
  | statement :: rest, h, scope => by
    simp [allWords, buildAll, allNodes, fine_words statement h.1 scope, fine_allWords rest h.2 (statement.build scope).2]

end

end Statement

theorem speaks_buildParameters (scope : Scope) (names : List String) :
    AllSpeak property (allNodes (buildParameters scope names).1) := by
  induction names generalizing scope with
  | nil => simp [buildParameters, allNodes]
  | cons name rest ih => simpa [buildParameters, buildParameter, allNodes] using ih _

theorem Function.fine_words (className : Option String) {function : Function} (h : Statement.AllGrammatical function.body)
    (scope : Scope) :
    Fine property function.words ↔ AllSpeak property (function.build className scope).1.nodes := by
  have hparameters : Fine property (commaWords function.parameters).tail := by
    intro word hword
    obtain ⟨parameter, -, hword⟩ := List.mem_flatMap.1 (List.mem_of_mem_tail hword)
    rcases List.mem_cons.1 hword with rfl | hword
    · simp
    · simp [List.mem_singleton.1 hword]
  have hbody : Fine property (Statement.block function.body).words ↔ _ :=
    Statement.fine_words (.block function.body) h (buildParameters scope.enter (function.allParameters className)).2
  simp only [words, tailWords, List.cons_append, fine_cons, fine_append, hparameters, hbody]
  simp [build, speaks_buildParameters]

theorem Declaration.fine_words {declaration : Declaration} (h : declaration.Grammatical) (scope : Scope) :
    Fine property declaration.words ↔ AllSpeak property (declaration.build scope).1.nodes := by
  cases declaration with
  | funcDecl function => exact Function.fine_words none h scope
  | classDecl name methods =>
    have hmethods : Fine property (methods.flatMap Function.words) ↔
        AllSpeak property (allNodes (Function.buildAll (some name) scope methods).1) := by
      replace h : ∀ method ∈ methods, Statement.AllGrammatical method.body := h
      induction methods generalizing scope with
      | nil => simp [Function.buildAll, allNodes]
      | cons method rest ih =>
        obtain ⟨hfirst, hrest⟩ := List.forall_mem_cons.1 h
        simp [Function.buildAll, allNodes, Function.fine_words (some name) hfirst scope,
          ih (method.build (some name) scope).2 hrest]
    simp [words, build, hmethods]
  | varDecl target => exact Variable.fine_words scope h

theorem Program.fine_words {program : Program} (h : program.Grammatical) (scope : Scope) :
    Fine property program.words ↔ ∀ tree ∈ (program.build scope).1, tree.Each (Speaks property) := by
  induction program generalizing scope with
  | nil => simp [words, build]
  | cons declaration rest ih =>
    obtain ⟨hfirst, hrest⟩ := List.forall_mem_cons.1 h
    have hwords : words (declaration :: rest) = declaration.words ++ words rest := rfl
    simp [hwords, build, Declaration.fine_words hfirst scope, ih hrest (declaration.build scope).2, Each, AllSpeak]

end Grammar

end NanScript
