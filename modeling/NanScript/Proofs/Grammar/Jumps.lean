import NanScript.Proofs.Locals
import NanScript.Proofs.Nodes

/-!
# Jumps stay in their loops

In a text without reports no jump leaves a function: each is in a loop of its own function, and none is in an expression.
-/

namespace NanScript

open List

namespace Tree

theorem jumps_bare (tree : Tree) : tree.bare.jumps = tree.jumps := by
  have hall {trees : List Tree} (htrees : ∀ tree ∈ trees, tree.bare.jumps = tree.jumps) :
      allJumps (trees.map bare) = allJumps trees := by
    induction trees with
    | nil => rfl
    | cons tree rest ih => simp_all [allJumps]
  have hoption {tree : Option Tree} (htree : ∀ given, tree = some given → given.bare.jumps = given.jumps) :
      optionJumps (tree.map bare) = optionJumps tree := by
    cases tree <;> simp_all [optionJumps]
  induction tree using of_children with
  | hstep tree ih => cases tree <;> simp_all [jumps, children]

theorem ValueIn.jumps {locals : List Nat} {tree : Tree} (hvalue : tree.ValueIn locals) : tree.jumps = [] := by
  have hall {trees : List Tree} (htrees : ∀ tree ∈ trees, tree.jumps = []) : allJumps trees = [] := by
    induction trees with
    | nil => rfl
    | cons tree rest ih => simp_all [allJumps]
  induction tree using of_children with
  | hstep tree ih => cases tree <;> simp_all [ValueIn, Tree.jumps, children, allValuesIn_iff]

/-- No jump leaves a function or an initial value. -/
def Contained : Tree → Prop
  | funcDecl _ _ _ _ body => body.jumps = []
  | varDecl _ _ _ _ initial => optionJumps initial = []
  | _ => True

theorem contained_bare (tree : Tree) : tree.bare.Contained ↔ tree.Contained := by
  cases tree with
  | funcDecl _ _ _ _ body => simp [Contained, jumps_bare]
  | varDecl _ _ _ _ initial => cases initial <;> simp [Contained, optionJumps, jumps_bare]
  | _ => exact Iff.rfl

end Tree

namespace Grammar

open NanScript.Tree

variable {scope : Scope}

theorem Phrase.jumps_tree {phrase : Phrase} (hgrammatical : phrase.Grammatical) : (phrase.tree scope).jumps = [] :=
  (phrase.valueIn_scope scope hgrammatical).jumps

theorem optionJumps_map {phrase : Option Phrase} (hgrammatical : ∀ given ∈ phrase, given.Grammatical) :
    optionJumps (phrase.map (Phrase.tree scope)) = [] := by
  cases phrase with
  | none => rfl
  | some phrase => exact Phrase.jumps_tree (hgrammatical phrase rfl)

theorem allJumps_initial {initial : ForInitial} (hgrammatical : initial.Grammatical) {loop : Tree} (hloop : loop.jumps = []) :
    allJumps ((initial.build scope).1.toList ++ [loop]) = [] := by
  cases initial with
  | nothing => simp [ForInitial.build, allJumps, hloop]
  | var name value => simp [ForInitial.build, Variable.build, allJumps, jumps, optionJumps_map hgrammatical, hloop]
  | expression phrase => simp [ForInitial.build, allJumps, Phrase.jumps_tree hgrammatical, hloop]

namespace Statement

mutual

/-- Where no loop is around a statement, none of its jumps leaves it. -/
theorem jumps_build (scope : Scope) : (statement : Statement) → statement.Grammatical → statement.Admissible false →
    (statement.build scope).1.jumps = []
  | expression _, hgrammatical, _ => Phrase.jumps_tree hgrammatical
  | declaration _, hgrammatical, _ | ret _, hgrammatical, _ => optionJumps_map hgrammatical
  | ifElse condition positive negative, ⟨hcondition, ⟨_, hpositive⟩, hnegative⟩, ⟨_, hpositive', hnegative'⟩ => by
    simp only [build, jumps, Phrase.jumps_tree hcondition, jumps_build scope positive hpositive hpositive',
      optionJumps_buildElse _ negative hnegative hnegative', append_nil]
  | whileLoop condition body, ⟨hcondition, _⟩, _ => by
    simp only [build, jumps, optionJumps, Phrase.jumps_tree hcondition, append_nil]
  | forLoop initial condition step body, ⟨hinitial, hcondition, hstep, _⟩, _ => by
    refine allJumps_initial hinitial ?_
    simp only [jumps, (conditionTree_valueIn hcondition).jumps, optionJumps_map hstep, append_nil]
  | block members, hmembers, ⟨_, hmembers'⟩ => allJumps_buildAll scope.enter members hmembers hmembers'

theorem optionJumps_buildElse (scope : Scope) : (statement : Option Statement) → ElseGrammatical statement →
    ElseAdmissible false statement → optionJumps (buildElse scope statement).1 = []
  | none, _, _ => rfl
  | some statement, ⟨_, hstatement⟩, hstatement' => jumps_build scope statement hstatement hstatement'

theorem allJumps_buildAll (scope : Scope) : (statements : List Statement) → AllGrammatical statements →
    AllAdmissible false statements → allJumps (buildAll scope statements).1 = []
  | [], _, _ => rfl
  | statement :: rest, ⟨hstatement, hrest⟩, ⟨hstatement', hrest'⟩ => by
    simp only [buildAll, allJumps, jumps_build scope statement hstatement hstatement', allJumps_buildAll _ rest hrest hrest',
      append_nil]

end

end Statement

theorem Built.contained {tree : Tree} (hbuilt : Built scope tree) : tree.Contained := by
  cases hbuilt with
  | function hgrammatical hadmissible => exact Statement.jumps_build _ (.block _) hgrammatical hadmissible.2.2.2.2
  | global hgrammatical => exact optionJumps_map hgrammatical

end Grammar

theorem contained_of_parse {source : String} (hsilent : (parse source).errors = []) {tree : Tree}
    (htree : tree ∈ functionDeclarations (parse source).program) : tree.Contained := by
  obtain ⟨scope, -, hbuilt⟩ := exists_built_of_parse hsilent htree
  exact (Tree.contained_bare tree).1 hbuilt.contained

end NanScript
