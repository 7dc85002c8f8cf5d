import NanScript.Proofs.Parser.Recovered
import NanScript.Proofs.Resolver

/-!
# Names mean what lexical scoping says

While a program is read, the names in sight stand in one flat list that is cut back at the end of every scope. Here that
list is compared with the stack of frames of the walk over the finished tree (`Frames.Shows`): what stands in the list is
what stands in the frames, one after the other. Main statement: the walk finds in a program that is parsed without a
report exactly the symbols that are there.
-/

namespace NanScript

open NanScript.Tree Function List

/-! ### Frames and scopes -/

namespace Frames

/-- The frames hold what the scope holds. -/
def Shows (frames : Frames) (scope : Scope) : Prop :=
  frames.flatten = scope.bindings.map fun binding => (binding.name, binding.symbol)

variable {frames : Frames} {scope : Scope}

section

variable (hshows : frames.Shows scope)

include hshows

theorem Shows.meaning (name : String) : frames.meaning name = scope.resolve name := by
  have hlookup (bindings : List Binding) : (bindings.map fun binding => (binding.name, binding.symbol)).lookup name =
      (bindings.find? (·.name == name)).map (·.symbol) := by
    induction bindings with
    | nil => rfl
    | cons binding rest ih =>
      rw [map_cons, lookup_cons, ih, find?_cons, BEq.comm]
      cases binding.name == name <;> rfl
  unfold Frames.meaning Scope.resolve Scope.find?
  rw [hshows, hlookup]

theorem Shows.enter : Shows ([] :: frames) scope.enter := hshows

theorem Shows.bind (name : String) : (frames.declare name scope.nextSymbol).Shows (scope.bind name) := by
  unfold Shows at hshows ⊢
  rw [flatten_declare, hshows]
  rfl

theorem Shows.declare (name : String) : (frames.declare name scope.nextSymbol).Shows (scope.declare name) := by
  unfold Shows at hshows ⊢
  rw [flatten_declare, hshows]
  rfl

theorem Shows.extends {inner : Scope} (hextends : Scope.Extends scope [] inner) : frames.Shows inner := by
  obtain ⟨declared, hbindings, hnames, -⟩ := hextends.bindings
  obtain rfl : declared = [] := by simpa using hnames
  unfold Shows at hshows ⊢
  rw [hbindings, hshows, nil_append]

end

end Frames

theorem Scope.nextSymbol_of_nested {scope : Scope} (hnested : scope.depth ≠ 0) : scope.nextSymbol = .localVar scope.nextId := by
  simp [nextSymbol, hnested]

theorem Scope.nextId_bind {scope : Scope} (hnested : scope.depth ≠ 0) (name : String) :
    (scope.bind name).nextId = scope.nextId + 1 := by
  simp [bind, declare, markInitialized, hnested]

namespace Grammar

open Scope NanScript.Tree

/-! ### Phrases -/

namespace Phrase

variable {frames : Frames} {scope : Scope} {phrase : Phrase}

/-- The walk agrees with the scope that a phrase was read in, as soon as the two agree on the names in the phrase. -/
theorem resolveValue_tree (hgrammatical : phrase.Grammatical)
    (hnames : ∀ name ∈ phrase.names, frames.meaning name = scope.resolve name) :
    (phrase.tree scope).resolveValue frames = phrase.tree scope := by
  induction phrase using of_parts with
  | hstep phrase ih =>
    have hparts : ∀ part ∈ phrase.parts, (part.tree scope).resolveValue frames = part.tree scope := fun part hpart =>
      ih part hpart (hgrammatical.of_part hpart) fun name hname => hnames name (mem_names_of_part hpart hname)
    cases phrase with
    | assign target assignment value =>
      obtain ⟨name, hname⟩ := Option.isSome_iff_exists.1 hgrammatical.1
      have hmeaning := hnames name (mem_append_left _ (mem_names_of_target? hname))
      have hvalue := hparts value mem_cons_self
      cases assignment <;> simp [hname, AssignmentSign.tree, AssignmentSign.op, resolveValue, hmeaning, hvalue]
    | _ => simp_all [parts, resolveValue, resolveValues_eq_map]

theorem behind_tree {next : Nat} (hgrammatical : phrase.Grammatical) :
    (phrase.tree scope).behind frames next = frames := by
  have hvalue := phrase.valueIn_scope scope hgrammatical
  generalize phrase.tree scope = tree at hvalue
  cases tree <;> first
    | rfl
    | exact hvalue.elim

variable (hshows : frames.Shows scope)

include hshows

theorem resolveValue_shown (hgrammatical : phrase.Grammatical) :
    (phrase.tree scope).resolveValue frames = phrase.tree scope :=
  resolveValue_tree hgrammatical fun name _ => hshows.meaning name

theorem resolve_shown (next : Nat) (hgrammatical : phrase.Grammatical) :
    (phrase.tree scope).resolve frames next = (phrase.tree scope, next) := by
  have hvalue := phrase.valueIn_scope scope hgrammatical
  have hresolve : (phrase.tree scope).resolve frames next = ((phrase.tree scope).resolveValue frames, next) := by
    generalize phrase.tree scope = tree at hvalue
    cases tree <;> first
      | rfl
      | exact hvalue.elim
  rw [hresolve, resolveValue_shown hshows hgrammatical]

theorem optionResolve_shown {value : Option Phrase} (hgrammatical : ∀ phrase ∈ value, phrase.Grammatical) :
    (value.map (Phrase.tree scope)).map (resolveValue frames) = value.map (Phrase.tree scope) := by
  cases value with
  | none => rfl
  | some phrase => simp [resolveValue_shown hshows (hgrammatical phrase rfl)]

end Phrase

open Phrase

/-! ### Statements -/

/-- The walk leaves a tree alone, and arrives at the scope behind it. -/
structure Agrees (frames : Frames) (scope : Scope) (built : Tree × Scope) : Prop where
  resolve : built.1.resolve frames scope.nextId = (built.1, built.2.nextId)
  shows : (built.1.behind frames scope.nextId).Shows built.2

section Statements

variable {frames : Frames} {scope : Scope} (hshows : frames.Shows scope)

include hshows

theorem Phrase.agrees {phrase : Phrase} (hgrammatical : phrase.Grammatical) :
    Agrees frames scope (phrase.tree scope, scope) := by
  refine ⟨resolve_shown hshows _ hgrammatical, ?_⟩
  simp only [behind_tree hgrammatical]
  exact hshows

/-- The initial value was read with the variable in sight already. It makes no difference, for it does not mention it. -/
theorem Variable.agrees_build (hnested : scope.depth ≠ 0) {var : Variable}
    (hgrammatical : var.Grammatical) (hunmentioned : ∀ phrase ∈ var.initial, var.name ∉ phrase.names) :
    Agrees frames scope (var.build scope) := by
  have hinitial : (var.initial.map (tree (scope.declare var.name))).map (resolveValue frames) =
      var.initial.map (tree (scope.declare var.name)) := by
    cases hgiven : var.initial with
    | none => rfl
    | some phrase =>
      refine congrArg some (resolveValue_tree (hgrammatical phrase hgiven) fun name hname => ?_)
      have hother : name ≠ var.name := by
        intro hsame
        exact hunmentioned phrase hgiven (hsame ▸ hname)
      rw [resolve_declare hother, hshows.meaning]
  have hsymbol := nextSymbol_of_nested hnested
  constructor
  · simp only [build, Tree.resolve, hinitial, hsymbol, nextId_bind hnested]
  · have hbind := hshows.bind var.name
    rwa [hsymbol] at hbind

theorem conditionTree_resolve {condition : Option Phrase} (hgrammatical : ∀ phrase ∈ condition, phrase.Grammatical) :
    (conditionTree scope condition).resolveValue frames = conditionTree scope condition := by
  cases condition with
  | none => rfl
  | some phrase => exact resolveValue_shown hshows (hgrammatical phrase rfl)

/-- A loop behind what a `for` begins with is read in the scope that this leaves. -/
theorem ForInitial.resolveBody_build (hnested : scope.depth ≠ 0) {initial : ForInitial}
    (hgrammatical : initial.Grammatical) (hadmissible : initial.Admissible) {loop : Tree} {behind : Nat}
    (hloop : ∀ frames' : Frames, frames'.Shows (initial.build scope).2 →
      loop.resolve frames' (initial.build scope).2.nextId = (loop, behind)) :
    resolveBody frames scope.nextId ((initial.build scope).1.toList ++ [loop]) =
      ((initial.build scope).1.toList ++ [loop], behind) := by
  cases initial with
  | nothing =>
    have hrest := hloop frames hshows
    simp only [build] at hrest
    simp [build, resolveBody, hrest]
  | var name initial =>
    have hagrees := @Variable.agrees_build frames scope hshows hnested ⟨false, name, initial⟩ hgrammatical
      fun phrase hphrase => (hadmissible.2 phrase hphrase).2
    have hrest := hloop _ hagrees.shows
    simp only [build] at hrest
    simp [build, resolveBody, hagrees.resolve, hrest]
  | expression phrase =>
    have hagrees := agrees hshows hgrammatical
    have hrest := hloop _ hagrees.shows
    simp only [build] at hrest
    simp [build, resolveBody, hagrees.resolve, hrest]

end Statements

namespace Statement

mutual

theorem agrees_build {inLoop : Bool} {frames : Frames} {scope : Scope} (hshows : frames.Shows scope)
    (hsteady : scope.Steady) (hnested : scope.depth ≠ 0) :
    (statement : Statement) → statement.Grammatical → statement.Admissible inLoop →
      Agrees frames scope (statement.build scope)
  | expression _, hgrammatical, _ => agrees hshows hgrammatical
  | declaration _, hgrammatical, ⟨_, hinitial⟩ =>
    Variable.agrees_build hshows hnested hgrammatical fun phrase hphrase => (hinitial phrase hphrase).2
  | ifElse condition positive negative, ⟨hcondition, ⟨hplain, hpositive⟩, hnegative⟩, ⟨_, hpositive', hnegative'⟩ => by
    have hextends := extends_build hsteady positive hpositive
    rw [declared?_of_isPlain hplain] at hextends
    have hpositive'' := agrees_build hshows hsteady hnested positive hpositive hpositive'
    have hnegative'' := resolveElse_buildElse (hshows.extends hextends) (hextends.steady hsteady)
      (hextends.depth ▸ hnested) negative hnegative hnegative'
    refine ⟨?_, hshows.extends (extends_build hsteady (.ifElse condition positive negative)
      ⟨hcondition, ⟨hplain, hpositive⟩, hnegative⟩)⟩
    simp only [build, Tree.resolve, resolveValue_shown hshows hcondition, hpositive''.resolve, hnegative'']
  | whileLoop condition body, ⟨hcondition, hplain, hbody⟩, ⟨_, hbody'⟩ => by
    have hbody'' := agrees_build hshows hsteady hnested body hbody hbody'
    refine ⟨?_, hshows.extends (extends_build hsteady (.whileLoop condition body) ⟨hcondition, hplain, hbody⟩)⟩
    simp only [build, Tree.resolve, resolveValue_shown hshows hcondition, hbody''.resolve, Option.map_none]
  | forLoop initial condition step body, ⟨hinitial, hcondition, hstep, hplain, hbody⟩, ⟨hinitial', _, _, hbody'⟩ => by
    have hextends := initial.extends_build scope.enter
    have hdepth : (initial.build scope.enter).2.depth ≠ 0 := by
      rw [hextends.depth]
      simp
    refine ⟨?_, hshows.extends (extends_build hsteady (.forLoop initial condition step body)
      ⟨hinitial, hcondition, hstep, hplain, hbody⟩)⟩
    have hmembers := @ForInitial.resolveBody_build _ scope.enter hshows.enter (by simp) initial hinitial hinitial'
      (.whileLoop .blank (conditionTree (initial.build scope.enter).2 condition)
        (body.build (initial.build scope.enter).2).1 (step.map (tree (initial.build scope.enter).2)))
      (body.build (initial.build scope.enter).2).2.nextId ?_
    · simp only [build, Tree.resolve]
      rw [show scope.nextId = scope.enter.nextId from rfl, hmembers]
      rfl
    · intro frames' hshows'
      have hbody'' := agrees_build hshows' (hextends.steady hsteady.enter) hdepth body hbody hbody'
      simp only [Tree.resolve, conditionTree_resolve hshows' hcondition, hbody''.resolve,
        optionResolve_shown hshows' hstep]
  | ret value, hvalue, _ => by
    refine ⟨?_, hshows⟩
    simp only [build, Tree.resolve, optionResolve_shown hshows hvalue]
  | breakLoop, _, _ => ⟨rfl, hshows⟩
  | continueLoop, _, _ => ⟨rfl, hshows⟩
  | block members, hmembers, ⟨hnodup, hmembers'⟩ => by
    have hbody := resolveBody_buildAll hshows.enter hsteady.enter (by simp) members hmembers hmembers'
    refine ⟨?_, hshows.extends (extends_build hsteady (.block members) hmembers)⟩
    simp only [build, Tree.resolve]
    rw [show scope.nextId = scope.enter.nextId from rfl, hbody]
    rfl

theorem resolveElse_buildElse {inLoop : Bool} {frames : Frames} {scope : Scope} (hshows : frames.Shows scope)
    (hsteady : scope.Steady) (hnested : scope.depth ≠ 0) :
    (statement : Option Statement) → ElseGrammatical statement → ElseAdmissible inLoop statement →
      resolveElse frames scope.nextId (buildElse scope statement).1 =
        ((buildElse scope statement).1, (buildElse scope statement).2.nextId)
  | none, _, _ => rfl
  | some statement, ⟨_, hstatement⟩, hstatement' => by
    simp only [buildElse, resolveElse, (agrees_build hshows hsteady hnested statement hstatement hstatement').resolve]

theorem resolveBody_buildAll {inLoop : Bool} {frames : Frames} {scope : Scope} (hshows : frames.Shows scope)
    (hsteady : scope.Steady) (hnested : scope.depth ≠ 0) :
    (statements : List Statement) → AllGrammatical statements → AllAdmissible inLoop statements →
      resolveBody frames scope.nextId (buildAll scope statements).1 =
        ((buildAll scope statements).1, (buildAll scope statements).2.nextId)
  | [], _, _ => rfl
  | statement :: rest, ⟨hstatement, hrest⟩, ⟨hstatement', hrest'⟩ => by
    have hextends := extends_build hsteady statement hstatement
    have hfirst := agrees_build hshows hsteady hnested statement hstatement hstatement'
    have hothers := resolveBody_buildAll hfirst.shows (hextends.steady hsteady) (hextends.depth ▸ hnested) rest hrest hrest'
    simp only [buildAll, resolveBody, hfirst.resolve, hothers]

end

end Statement

/-! ### Programs -/

variable {frames : Frames} {scope : Scope}

section

variable (hshows : frames.Shows scope)

include hshows

theorem resolveParameters_build (hnested : scope.depth ≠ 0) (names : List String) :
    ∃ inner : Frames, inner.Shows (buildParameters scope names).2 ∧
      resolveParameters frames scope.nextId (buildParameters scope names).1 =
        ((buildParameters scope names).1, inner, (buildParameters scope names).2.nextId) := by
  induction names generalizing frames scope with
  | nil => exact ⟨frames, hshows, rfl⟩
  | cons name rest ih =>
    have hsymbol := nextSymbol_of_nested hnested
    have hbind := hshows.bind name
    rw [hsymbol] at hbind
    obtain ⟨inner, hinner, hrest⟩ := @ih _ (scope.bind name) hbind hnested
    rw [nextId_bind hnested] at hrest
    refine ⟨inner, hinner, ?_⟩
    simp only [buildParameters, buildParameter, resolveParameters, hsymbol, hrest]

theorem Function.agrees_build (hsteady : scope.Steady) {className : Option String} {function : Function}
    (hgrammatical : Statement.AllGrammatical function.body) (hadmissible : function.Admissible className) :
    Agrees frames scope (function.build className scope) := by
  have hextends := extends_buildParameters scope.enter (function.allParameters className)
  have hdepth : (buildParameters scope.enter (function.allParameters className)).2.depth ≠ 0 := by
    rw [hextends.depth]
    simp
  obtain ⟨inner, hinner, hparameters⟩ :=
    @resolveParameters_build _ scope.enter hshows.enter (by simp) (function.allParameters className)
  have hbody := Statement.agrees_build hinner (hextends.steady hsteady.enter) hdepth (.block function.body) hgrammatical
    hadmissible.2.2.2.2
  refine ⟨?_, hshows.extends (extends_build hsteady className function hgrammatical)⟩
  simp only [build, Tree.resolve]
  rw [show scope.nextId = scope.enter.nextId from rfl, hparameters]
  simp only [hbody.resolve]
  rfl

theorem Function.resolveBody_buildAll (hsteady : scope.Steady) {className : Option String} {functions : List Function}
    (hgrammatical : ∀ function ∈ functions, Statement.AllGrammatical function.body)
    (hadmissible : ∀ function ∈ functions, function.Admissible className) :
    resolveBody frames scope.nextId (buildAll className scope functions).1 =
      ((buildAll className scope functions).1, (buildAll className scope functions).2.nextId) := by
  induction functions generalizing scope with
  | nil => rfl
  | cons function rest ih =>
    have hextends := extends_build hsteady className function (hgrammatical function (by simp))
    have hfirst := agrees_build hshows hsteady (hgrammatical function (by simp)) (hadmissible function (by simp))
    have hothers := ih (hshows.extends hextends) (hextends.steady hsteady)
      (fun other hother => hgrammatical other (mem_cons_of_mem _ hother))
      (fun other hother => hadmissible other (mem_cons_of_mem _ hother))
    have hbehind : (function.build className scope).1.behind frames scope.nextId = frames := rfl
    simp only [buildAll, resolveBody, hfirst.resolve, hbehind, hothers]

theorem Declaration.resolveMember_build (hsteady : scope.Steady) (htop : scope.depth = 0) {declaration : Declaration}
    (hgrammatical : declaration.Grammatical) (hadmissible : declaration.Admissible) :
    (declaration.build scope).1.resolveMember frames scope.nextId =
        ((declaration.build scope).1, (declaration.build scope).2.nextId) ∧
      ((declaration.build scope).1.globalsBehind frames).Shows (declaration.build scope).2 := by
  have hextends := declaration.extends_build hsteady hgrammatical
  cases declaration with
  | funcDecl function =>
    exact ⟨(Function.agrees_build hshows hsteady hgrammatical hadmissible).resolve, hshows.extends hextends⟩
  | classDecl name methods =>
    refine ⟨?_, hshows.extends hextends⟩
    simp only [build, resolveMember, Tree.resolve, Function.resolveBody_buildAll hshows hsteady hgrammatical hadmissible.2]
  | varDecl var =>
    have hsymbol : scope.nextSymbol = .global := by simp [nextSymbol, htop]
    have hdeclare := hshows.declare var.name
    have hbind := hshows.bind var.name
    rw [hsymbol] at hdeclare hbind
    refine ⟨?_, hbind⟩
    have hnext : (scope.bind var.name).nextId = scope.nextId := by simp [Scope.bind, Scope.declare, markInitialized, htop]
    simp only [build, Variable.build, resolveMember, optionResolve_shown hdeclare hgrammatical, hsymbol, hnext]

theorem Program.resolveMembers_build (hsteady : scope.Steady) (htop : scope.depth = 0) {program : Program}
    (hgrammatical : program.Grammatical) (hadmissible : ∀ declaration ∈ program, declaration.Admissible) :
    (resolveMembers frames scope.nextId (program.build scope).1).1 = (program.build scope).1 := by
  induction program generalizing frames scope with
  | nil => rfl
  | cons declaration rest ih =>
    have hextends := declaration.extends_build hsteady (hgrammatical declaration (by simp))
    obtain ⟨hfirst, hbehind⟩ := Declaration.resolveMember_build hshows hsteady htop (hgrammatical declaration (by simp))
      (hadmissible declaration (by simp))
    have hothers := ih hbehind (hextends.steady hsteady) (hextends.depth.trans htop)
      (fun other hother => hgrammatical other (mem_cons_of_mem _ hother))
      (fun other hother => hadmissible other (mem_cons_of_mem _ hother))
    simp only [build, resolveMembers, hfirst, hothers]

end

/-! ### Receivers -/

end Grammar

/-- The name of the first parameter of a function. -/
def Tree.receiver? : Tree → Option String
  | .funcDecl _ _ _ (.var _ name _ :: _) _ => some name
  | _ => none

theorem Tree.receiver?_bare (tree : Tree) : tree.bare.receiver? = tree.receiver? := by
  match tree with
  | .funcDecl _ _ _ [] _ => rfl
  | .funcDecl _ _ _ (parameter :: _) _ => cases parameter <;> rfl
  | .int .. | .float .. | .bool .. | .null _ | .str .. | .array .. | .var .. | .assign .. | .binary .. | .unary ..
  | .ternary .. | .call .. | .get .. | .set .. | .indexGet .. | .indexSet .. | .new .. | .varDecl .. | .block ..
  | .ifElse .. | .whileLoop .. | .ret .. | .breakLoop _ | .continueLoop _ | .classDecl .. => rfl

namespace Grammar

open Scope NanScript.Tree

theorem Function.receiver?_buildAll {scope : Scope} {owner : String} {functions : List Function} :
    ∀ tree ∈ (buildAll (some owner) scope functions).1, tree.receiver? = some Parser.thisName := by
  induction functions generalizing scope with
  | nil => simp [buildAll]
  | cons function rest ih =>
    intro tree htree
    rcases mem_cons.1 htree with rfl | htree
    · rfl
    · exact ih tree htree

theorem Program.receiver?_build {scope : Scope} {program : Program} {note : Note} {name : String} {methods : List Tree}
    (hclass : classDecl note name methods ∈ (program.build scope).1) :
    ∀ method ∈ methods, method.receiver? = some Parser.thisName := by
  induction program generalizing scope with
  | nil => simp [Program.build] at hclass
  | cons declaration rest ih =>
    rcases mem_cons.1 hclass with hclass | hclass
    · cases declaration with
      | funcDecl function => cases hclass
      | varDecl var => cases hclass
      | classDecl owner functions =>
        injection hclass with _ _ hmethods
        subst hmethods
        exact Function.receiver?_buildAll
    · exact ih hclass

end Grammar

/-! ### Mentions -/

namespace Tree

def mentionedLocal? : Tree → Option Nat
  | var _ _ symbol | assign _ _ symbol _ => symbol.local?
  | _ => none

/-- Every local that is mentioned below a tree is one of these. -/
def MentionsOnly (locals : List Nat) (tree : Tree) : Prop := tree.Each fun node => ∀ id ∈ node.mentionedLocal?, id ∈ locals

variable {locals locals' : List Nat} {tree : Tree}

theorem MentionsOnly.mono (hmentions : tree.MentionsOnly locals) (hsubset : locals ⊆ locals') : tree.MentionsOnly locals' :=
  hmentions.imp fun _ hnode id hid => hsubset (hnode id hid)

theorem mentionsOnly_of_children (hmentioned : ∀ id ∈ tree.mentionedLocal?, id ∈ locals)
    (hchildren : ∀ child ∈ tree.children, child.MentionsOnly locals) : tree.MentionsOnly locals :=
  each_iff.2 ⟨hmentioned, hchildren⟩

theorem mentionsOnly_of_none (hnone : tree.mentionedLocal? = none)
    (hchildren : ∀ child ∈ tree.children, child.MentionsOnly locals) : tree.MentionsOnly locals :=
  mentionsOnly_of_children (by simp [hnone]) hchildren

theorem declares_subset_declaredLocals (tree : Tree) : tree.declares ⊆ tree.declaredLocals := by
  cases tree <;> simp [declares, declaredLocals]

theorem ValueIn.declaredLocals_eq (hvalue : tree.ValueIn locals) : tree.declaredLocals = [] := by
  cases tree <;> simp_all [ValueIn, declaredLocals]

theorem BodyIn.of_mem {trees : List Tree} (hin : BodyIn locals trees) (htree : tree ∈ trees) :
    ∃ seen, tree.StatementIn seen ∧ tree.declaredLocals ++ seen ⊆ allDeclaredLocals trees ++ locals := by
  induction trees generalizing locals with
  | nil => contradiction
  | cons first rest ih =>
    obtain ⟨hfirst, hrest⟩ := hin
    rcases mem_cons.1 htree with rfl | htree
    · exact ⟨locals, hfirst, by grind [allDeclaredLocals]⟩
    · obtain ⟨seen, hseen, hsubset⟩ := ih hrest htree
      have hdeclares := first.declares_subset_declaredLocals
      exact ⟨seen, hseen, by grind [allDeclaredLocals]⟩

theorem StatementIn.child (hin : tree.StatementIn locals) {child : Tree} (hchild : child ∈ tree.children) :
    ∃ seen, child.StatementIn seen ∧ child.declaredLocals ++ seen ⊆ tree.declaredLocals ++ locals := by
  have hvalue (hvalue : child.ValueIn locals) :
      ∃ seen, child.StatementIn seen ∧ child.declaredLocals ++ seen ⊆ tree.declaredLocals ++ locals := by
    refine ⟨locals, hvalue.statementIn, ?_⟩
    rw [hvalue.declaredLocals_eq]
    exact subset_append_right _ _
  cases tree with
  | varDecl | ret => exact hvalue (hin child (Option.mem_toList.1 hchild))
  | block => exact BodyIn.of_mem hin hchild
  | ifElse _ _ positive negative =>
    simp only [children, mem_cons] at hchild
    rcases hchild with rfl | rfl | hchild
    · exact hvalue hin.1
    · exact ⟨locals, hin.2.1, by grind [declaredLocals]⟩
    · obtain rfl := Option.mem_toList.1 hchild
      exact ⟨locals, hin.2.2, by grind [declaredLocals, elseDeclaredLocals]⟩
  | whileLoop =>
    simp only [children, mem_cons] at hchild
    rcases hchild with rfl | rfl | hchild
    · exact hvalue hin.1
    · exact ⟨locals, hin.2.1, Subset.refl _⟩
    · exact hvalue (hin.2.2 child (Option.mem_toList.1 hchild))
  | breakLoop | continueLoop => contradiction
  | _ => exact hvalue (ValueIn.child hin child hchild)

theorem StatementIn.mentionsOnly (hin : tree.StatementIn locals) : tree.MentionsOnly (tree.declaredLocals ++ locals) := by
  induction tree using of_children generalizing locals with
  | hstep tree ih =>
    refine mentionsOnly_of_children ?_ fun child hchild => ?_
    · cases tree with
      | var => exact hin
      | assign => exact hin.1
      | _ => simp [mentionedLocal?]
    · obtain ⟨seen, hseen, hsubset⟩ := hin.child hchild
      exact (ih child hchild hseen).mono hsubset

theorem ValueIn.mentionsOnly (hvalue : tree.ValueIn locals) : tree.MentionsOnly locals := by
  simpa [hvalue.declaredLocals_eq] using hvalue.statementIn.mentionsOnly

theorem IsParameter.mentionsOnly {parameter : Tree} {parameters : List Tree} (hparameter : parameter.IsParameter)
    (hmem : parameter ∈ parameters) : parameter.MentionsOnly (parameterLocals parameters) := by
  cases parameter with
  | var =>
    refine mentionsOnly_of_children (fun id hid => ?_) nofun
    exact mem_flatMap.2 ⟨_, hmem, Option.mem_toList.2 hid⟩
  | _ => exact hparameter.elim

/-- A function mentions only locals that it declares itself, as parameters or in its body. -/
theorem IsFunction.mentionsOnly {globals : List String} (hfunction : tree.IsFunction globals) (hclosed : tree.IsClosed) :
    tree.MentionsOnly tree.declaredLocals := by
  cases tree with
  | funcDecl note name sourceName parameters body =>
    obtain ⟨locals, hbody, hlocals⟩ := hclosed
    refine mentionsOnly_of_none rfl fun child hchild => ?_
    rcases mem_cons.1 hchild with rfl | hchild
    · refine hbody.mentionsOnly.mono ?_
      rw [declaredLocals]
      exact append_subset.2 ⟨subset_append_right _ _, fun id hid => mem_append_left _ (hlocals id hid)⟩
    · exact ((hfunction.1 child hchild).mentionsOnly hchild).mono (subset_append_left _ _)
  | _ => exact hfunction.elim

end Tree

/-! ### Parsed programs -/

variable {source : String}

theorem mentionsOnly_of_parse (hsilent : (parse source).errors = []) {tree : Tree}
    (htree : tree ∈ functionDeclarations (parse source).program) : tree.MentionsOnly tree.declaredLocals := by
  have hclosed := isClosed_of_parse hsilent htree
  obtain ⟨declaration, hdeclaration, hmem⟩ := mem_flatMap.1 htree
  have hkind := isDeclaration_of_parse source declaration hdeclaration
  cases declaration with
  | classDecl => exact IsFunction.mentionsOnly (hkind tree hmem) hclosed
  | varDecl =>
    obtain rfl := mem_singleton.1 hmem
    refine mentionsOnly_of_none rfl fun child hchild => ?_
    have hvalue := hclosed child (by simpa [children] using hchild)
    exact hvalue.mentionsOnly.mono (nil_subset _)
  | funcDecl note name sourceName parameters body =>
    obtain rfl := mem_singleton.1 hmem
    have hfunction : (funcDecl note name sourceName parameters body).IsFunction _ := hkind
    exact hfunction.mentionsOnly hclosed
  | _ => exact hkind.elim

theorem resolveProgram_of_parse (hsilent : (parse source).errors = []) :
    resolveProgram (parse source).program = (parse source).program := by
  obtain ⟨program, -, hgrammatical, hadmissible, htrees⟩ := parse_sound hsilent
  apply resolveMembers_of_bare
  rw [htrees]
  have hempty : Frames.Shows [[]] Scope.initial := rfl
  exact Grammar.Program.resolveMembers_build hempty Scope.steady_initial rfl hgrammatical hadmissible.2

theorem receiver?_of_parse (hsilent : (parse source).errors = []) {note : Note} {name : String} {methods : List Tree}
    (hclass : classDecl note name methods ∈ (parse source).program) {method : Tree} (hmethod : method ∈ methods) :
    method.receiver? = some Parser.thisName := by
  obtain ⟨program, -, -, -, htrees⟩ := parse_sound hsilent
  have hbare : (classDecl note name methods).bare ∈ program.trees := by
    rw [← htrees]
    exact mem_map_of_mem hclass
  rw [bare, bareAll_eq_map] at hbare
  rw [← receiver?_bare]
  exact Grammar.Program.receiver?_build hbare _ (mem_map_of_mem hmethod)

/-- Names mean what lexical scoping says. In a program that is parsed without a report, the walk with a stack of frames
finds every symbol as it is; the locals are declared under the numbers from one on, each once, in the order they are
written; a function, or the initial value of a global, mentions no local but those it declares itself; and the first
parameter of a method is its object. -/
theorem resolution_is_lexical {source : String} (hsilent : (parse source).errors = []) :
    Tree.resolveProgram (parse source).program = (parse source).program ∧
      (∃ count, (parse source).program.flatMap Tree.declaredLocals = List.range' 1 count) ∧
      (∀ tree ∈ functionDeclarations (parse source).program, tree.MentionsOnly tree.declaredLocals) ∧
      ∀ note name methods, Tree.classDecl note name methods ∈ (parse source).program →
        ∀ method ∈ methods, method.receiver? = some Parser.thisName := by
  have hresolve := resolveProgram_of_parse hsilent
  have hnumbers := Tree.declaredLocals_resolveProgram (parse source).program
  rw [hresolve] at hnumbers
  exact ⟨hresolve, hnumbers, fun _ htree => mentionsOnly_of_parse hsilent htree,
    fun _ _ _ hclass _ hmethod => receiver?_of_parse hsilent hclass hmethod⟩

private def shadowSource : String :=
  "func f(a) \x7b for (var i = 0; i < a; i += g) \x7b var a = i; \x7b var i = a; g(i); \x7d \x7d return i; \x7d var g = g;"

/-- Names that are declared again in inner blocks, and come back behind them. -/
theorem resolution_is_lexical_shadow :
    (parse shadowSource).errors = [] ∧ Tree.resolveProgram (parse shadowSource).program = (parse shadowSource).program ∧
      (parse shadowSource).program.flatMap Tree.declaredLocals = [1, 2, 3, 4] ∧
      ((parse shadowSource).program.flatMap Tree.nodes).filterMap Tree.mentionedLocal? = [2, 1, 2, 3, 4, 2, 2, 1] := by
  obtain ⟨hsilent, hdeclared, hmentioned⟩ : (parse shadowSource).errors = [] ∧
      (parse shadowSource).program.flatMap Tree.declaredLocals = [1, 2, 3, 4] ∧
      ((parse shadowSource).program.flatMap Tree.nodes).filterMap Tree.mentionedLocal? = [2, 1, 2, 3, 4, 2, 2, 1] := by
    decide +kernel
  exact ⟨hsilent, (resolution_is_lexical hsilent).1, hdeclared, hmentioned⟩

end NanScript
