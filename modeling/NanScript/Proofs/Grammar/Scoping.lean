import NanScript.Proofs.Grammar.Meaning

/-!
# The scope behind a text

A statement leaves the scope it stands in as it was, but for the variable it declares itself; what is declared inside of
it is forgotten with the inner scope. The same holds for parameters, functions and whole programs.
-/

namespace NanScript.Grammar

open Scope

/-- The names that a statement adds to the scope it stands in. -/
def ForInitial.declared : ForInitial → List String
  | var name _ => [name]
  | _ => []

theorem Variable.extends_build (scope : Scope) (var : Variable) : Extends scope [var.name] (var.build scope).2 :=
  extends_bind scope var.name

theorem ForInitial.extends_build (scope : Scope) (initial : ForInitial) :
    Extends scope initial.declared (initial.build scope).2 := by
  cases initial with
  | nothing => exact .refl scope
  | var name _ => exact extends_bind scope name
  | expression _ => exact .refl scope

theorem filterMap_cons_toList {α β : Type} (declared? : α → Option β) (first : α) (others : List α) :
    (first :: others).filterMap declared? = (declared? first).toList ++ others.filterMap declared? := by
  cases hfirst : declared? first <;> simp [hfirst]

namespace Statement

/-- A plain statement declares nothing in the scope it stands in. -/
theorem declared?_of_isPlain {statement : Statement} (hplain : statement.IsPlain) : statement.declared? = none := by
  cases statement <;> first
    | rfl
    | exact hplain.elim

mutual

theorem extends_build {scope : Scope} (hsteady : scope.Steady) :
    (statement : Statement) → statement.Grammatical → Extends scope statement.declared?.toList (statement.build scope).2
  | expression _, _ => .refl scope
  | declaration var, _ => var.extends_build scope
  | ifElse _ positive negative, ⟨_, ⟨hplain, hpositive⟩, hnegative⟩ => by
    have h := extends_build hsteady positive hpositive
    rw [declared?_of_isPlain hplain] at h
    exact h.trans (extends_buildElse (h.steady hsteady) negative hnegative)
  | whileLoop _ body, ⟨_, hplain, hbody⟩ => by
    have h := extends_build hsteady body hbody
    rwa [declared?_of_isPlain hplain] at h
  | forLoop initial _ _ body, ⟨_, _, _, hplain, hbody⟩ => by
    have h := initial.extends_build scope.enter
    have h' := extends_build (h.steady hsteady.enter) body hbody
    exact (h.trans h').extends_leave hsteady
  | ret _, _ => .refl scope
  | breakLoop, _ => .refl scope
  | continueLoop, _ => .refl scope
  | block members, hmembers => (extends_buildAll hsteady.enter members hmembers).extends_leave hsteady

theorem extends_buildElse {scope : Scope} (hsteady : scope.Steady) :
    (statement : Option Statement) → ElseGrammatical statement → Extends scope [] (buildElse scope statement).2
  | none, _ => .refl scope
  | some statement, ⟨hplain, hstatement⟩ => by
    have h := extends_build hsteady statement hstatement
    rwa [declared?_of_isPlain hplain] at h

theorem extends_buildAll {scope : Scope} (hsteady : scope.Steady) :
    (statements : List Statement) → AllGrammatical statements →
      Extends scope (statements.filterMap declared?) (buildAll scope statements).2
  | [], _ => .refl scope
  | statement :: rest, ⟨hstatement, hrest⟩ => by
    have h := extends_build hsteady statement hstatement
    rw [filterMap_cons_toList]
    exact h.trans (extends_buildAll (h.steady hsteady) rest hrest)

end

end Statement

theorem extends_buildParameters (scope : Scope) (parameters : List String) :
    Extends scope parameters (buildParameters scope parameters).2 := by
  induction parameters generalizing scope with
  | nil => exact .refl scope
  | cons name rest ih => exact (extends_bind scope name).trans (ih (scope.bind name))

theorem Function.extends_build {scope : Scope} (hsteady : scope.Steady) (className : Option String) (function : Function)
    (hbody : Statement.AllGrammatical function.body) : Extends scope [] (function.build className scope).2 := by
  have h := extends_buildParameters scope.enter (function.allParameters className)
  have h' := Statement.extends_build (h.steady hsteady.enter) (.block function.body) hbody
  exact (h.trans h').extends_leave hsteady

theorem Function.extends_buildAll {scope : Scope} (hsteady : scope.Steady) (className : Option String)
    (functions : List Function) (hbodies : ∀ function ∈ functions, Statement.AllGrammatical function.body) :
    Extends scope [] (Function.buildAll className scope functions).2 := by
  induction functions generalizing scope with
  | nil => exact .refl scope
  | cons function rest ih =>
    have h := Function.extends_build hsteady className function (hbodies function (by simp))
    have hrest : ∀ other ∈ rest, Statement.AllGrammatical other.body := fun other hother =>
      hbodies other (by simp [hother])
    exact h.trans (ih (h.steady hsteady) hrest)

theorem Declaration.extends_build {scope : Scope} (hsteady : scope.Steady) (declaration : Declaration)
    (hgrammatical : declaration.Grammatical) :
    Extends scope declaration.global?.toList (declaration.build scope).2 := by
  cases declaration with
  | funcDecl function => exact Function.extends_build hsteady none function hgrammatical
  | classDecl name methods => exact Function.extends_buildAll hsteady (some name) methods hgrammatical
  | varDecl var => exact var.extends_build scope

end NanScript.Grammar
