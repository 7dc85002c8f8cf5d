import NanScript.Proofs.Locals
import NanScript.Proofs.Nodes

/-!
# Lexical scoping

A second way to find out what names mean: walk over the finished tree with a stack of frames, one for the globals, one for
the parameters of a function and one for every block, and number the locals as their declarations come by. The symbols
that the tree carries already are never read, only overwritten. Main statements: the locals that are declared come out as
consecutive numbers, in the order of their declarations (`declaredLocals_resolveProgram`), and a program stays as it is when the
bare program does (`resolveMembers_of_bare`).
-/

namespace NanScript

open List

/-- The names in sight with their meanings. The innermost frame stands in front, and in every frame the latest name. -/
abbrev Frames := List (List (String × Symbol))

namespace Frames

/-- What the innermost declaration says, if there is one. -/
def meaning (frames : Frames) (name : String) : Symbol := (frames.flatten.lookup name).getD .unresolved

/-- Declare a name in the innermost frame. -/
def declare (frames : Frames) (name : String) (symbol : Symbol) : Frames :=
  match frames with
  | [] => [[(name, symbol)]]
  | frame :: outer => ((name, symbol) :: frame) :: outer

@[simp] theorem flatten_declare (frames : Frames) (name : String) (symbol : Symbol) :
    (frames.declare name symbol).flatten = (name, symbol) :: frames.flatten := by
  cases frames <;> rfl

end Frames

namespace Tree

mutual

/-- The expression with every name as the frames have it. -/
def resolveValue (frames : Frames) : Tree → Tree
  | array note items => .array note (resolveValues frames items)
  | var note name _ => .var note name (frames.meaning name)
  | assign note name _ value => .assign note name (frames.meaning name) (value.resolveValue frames)
  | binary note op left right => .binary note op (left.resolveValue frames) (right.resolveValue frames)
  | unary note op operand => .unary note op (operand.resolveValue frames)
  | ternary note condition positive negative =>
    .ternary note (condition.resolveValue frames) (positive.resolveValue frames) (negative.resolveValue frames)
  | call note callee arguments => .call note (callee.resolveValue frames) (resolveValues frames arguments)
  | get note object name => .get note (object.resolveValue frames) name
  | set note object name value => .set note (object.resolveValue frames) name (value.resolveValue frames)
  | indexGet note object index => .indexGet note (object.resolveValue frames) (index.resolveValue frames)
  | indexSet note object index value =>
    .indexSet note (object.resolveValue frames) (index.resolveValue frames) (value.resolveValue frames)
  | tree => tree

def resolveValues (frames : Frames) : List Tree → List Tree
  | [] => []
  | tree :: rest => tree.resolveValue frames :: resolveValues frames rest

end

theorem resolveValues_eq_map (frames : Frames) (trees : List Tree) : resolveValues frames trees = trees.map (resolveValue frames) := by
  induction trees with
  | nil => rfl
  | cons tree rest ih => rw [resolveValues, ih, map_cons]

/-- The frames behind a statement that stands where `next` is the number of the next local. -/
def behind (frames : Frames) (next : Nat) : Tree → Frames
  | varDecl _ name _ _ _ => frames.declare name (.localVar next)
  | _ => frames

/-- Parameters are numbered from the left. With them go the frames and the number behind. -/
def resolveParameters (frames : Frames) (next : Nat) : List Tree → List Tree × Frames × Nat
  | [] => ([], frames, next)
  | .var note name _ :: rest =>
    let (others, behind) := resolveParameters (frames.declare name (.localVar next)) (next + 1) rest
    (.var note name (.localVar next) :: others, behind)
  | tree :: rest =>
    let (others, behind) := resolveParameters frames next rest
    (tree :: others, behind)

mutual

/-- The statement or the function with every name resolved, and the number of the next local behind it. The initial value
of a variable is outside of its scope. -/
def resolve (frames : Frames) (next : Nat) : Tree → Tree × Nat
  | varDecl note name _ managed initial =>
    (.varDecl note name (.localVar next) managed (initial.map (resolveValue frames)), next + 1)
  | block note statements =>
    let (trees, behind) := resolveBody ([] :: frames) next statements
    (.block note trees, behind)
  | ifElse note condition positive negative =>
    let (positiveTree, behind) := positive.resolve frames next
    let (negativeTree, behind) := resolveElse frames behind negative
    (.ifElse note (condition.resolveValue frames) positiveTree negativeTree, behind)
  | whileLoop note condition body step =>
    let (tree, behind) := body.resolve frames next
    (.whileLoop note (condition.resolveValue frames) tree (step.map (resolveValue frames)), behind)
  | ret note value => (.ret note (value.map (resolveValue frames)), next)
  | funcDecl note name sourceName parameters body =>
    let (parameterTrees, inner, behind) := resolveParameters ([] :: frames) next parameters
    let (tree, behind) := body.resolve inner behind
    (.funcDecl note name sourceName parameterTrees tree, behind)
  | classDecl note name methods =>
    let (trees, behind) := resolveBody frames next methods
    (.classDecl note name trees, behind)
  | tree => (tree.resolveValue frames, next)

def resolveElse (frames : Frames) (next : Nat) : Option Tree → Option Tree × Nat
  | none => (none, next)
  | some tree => let (resolved, behind) := tree.resolve frames next; (some resolved, behind)

def resolveBody (frames : Frames) (next : Nat) : List Tree → List Tree × Nat
  | [] => ([], next)
  | tree :: rest =>
    let (resolved, behind) := tree.resolve frames next
    let (others, behind) := resolveBody (tree.behind frames next) behind rest
    (resolved :: others, behind)

end

/-- The frames behind a member of a program. -/
def globalsBehind (frames : Frames) : Tree → Frames
  | varDecl _ name _ _ _ => frames.declare name .global
  | _ => frames

/-- A global is in sight of its own initial value. -/
def resolveMember (frames : Frames) (next : Nat) : Tree → Tree × Nat
  | varDecl note name _ managed initial =>
    (.varDecl note name .global managed (initial.map (resolveValue (frames.declare name .global))), next)
  | tree => tree.resolve frames next

def resolveMembers (frames : Frames) (next : Nat) : List Tree → List Tree × Nat
  | [] => ([], next)
  | tree :: rest =>
    let (resolved, behind) := tree.resolveMember frames next
    let (others, behind) := resolveMembers (tree.globalsBehind frames) behind rest
    (resolved :: others, behind)

/-- The program with every name resolved. Locals are numbered from one. -/
def resolveProgram (program : List Tree) : List Tree := (resolveMembers [[]] 1 program).1

/-! ### Numbers -/

mutual

/-- The locals that a tree declares, in the order they are written. -/
def declaredLocals : Tree → List Nat
  | varDecl _ _ symbol _ _ => symbol.local?.toList
  | block _ statements => allDeclaredLocals statements
  | ifElse _ _ positive negative => positive.declaredLocals ++ elseDeclaredLocals negative
  | whileLoop _ _ body _ => body.declaredLocals
  | funcDecl _ _ _ parameters body => parameterLocals parameters ++ body.declaredLocals
  | classDecl _ _ methods => allDeclaredLocals methods
  | _ => []

def elseDeclaredLocals : Option Tree → List Nat
  | none => []
  | some tree => tree.declaredLocals

def allDeclaredLocals : List Tree → List Nat
  | [] => []
  | tree :: rest => tree.declaredLocals ++ allDeclaredLocals rest

end

/-- The numbers from `first` on, up to but not including `behind`. -/
def Counts (first : Nat) (ids : List Nat) (behind : Nat) : Prop :=
  ∃ count, ids = List.range' first count ∧ behind = first + count

theorem Counts.nil (first : Nat) : Counts first [] first := ⟨0, rfl, rfl⟩

theorem Counts.single (first : Nat) : Counts first [first] (first + 1) := ⟨1, rfl, rfl⟩

theorem Counts.append {first middle behind : Nat} {ids ids' : List Nat} (h : Counts first ids middle)
    (h' : Counts middle ids' behind) : Counts first (ids ++ ids') behind := by
  obtain ⟨count, rfl, rfl⟩ := h
  obtain ⟨count', rfl, rfl⟩ := h'
  refine ⟨count + count', ?_, by omega⟩
  rw [List.range'_append_1]

theorem counts_resolveParameters (frames : Frames) (next : Nat) (parameters : List Tree) :
    Counts next (parameterLocals (resolveParameters frames next parameters).1)
      (resolveParameters frames next parameters).2.2 := by
  fun_induction resolveParameters frames next parameters with
  | case1 => exact .nil _
  | case2 frames next note name symbol rest others behind hrest ih =>
    rw [hrest] at ih
    exact (Counts.single next).append ih
  | case3 frames next tree rest hother others behind hrest ih =>
    rw [hrest] at ih
    have hnone : parameterLocals (tree :: others) = parameterLocals others := by
      cases tree <;> first
        | rfl
        | exact (hother _ _ _ rfl).elim
    rw [hnone]
    exact ih

mutual

/-- Every declaration in a statement gets a number of its own, and no number is left out. -/
theorem counts_resolve (frames : Frames) (next : Nat) :
    (tree : Tree) → Counts next (tree.resolve frames next).1.declaredLocals (tree.resolve frames next).2
  | varDecl .. => .single next
  | block _ statements => counts_resolveBody ([] :: frames) next statements
  | ifElse _ _ positive negative =>
    (counts_resolve frames next positive).append (counts_resolveElse frames _ negative)
  | whileLoop _ _ body _ => counts_resolve frames next body
  | funcDecl _ _ _ parameters body =>
    (counts_resolveParameters ([] :: frames) next parameters).append (counts_resolve _ _ body)
  | classDecl _ _ methods => counts_resolveBody frames next methods
  | int .. | float .. | bool .. | null _ | str .. | array .. | var .. | assign .. | binary .. | unary .. | ternary ..
  | call .. | get .. | set .. | indexGet .. | indexSet .. | new .. | ret .. | breakLoop _ | continueLoop _ => .nil next

theorem counts_resolveElse (frames : Frames) (next : Nat) :
    (tree : Option Tree) → Counts next (elseDeclaredLocals (resolveElse frames next tree).1) (resolveElse frames next tree).2
  | none => .nil next
  | some tree => counts_resolve frames next tree

theorem counts_resolveBody (frames : Frames) (next : Nat) :
    (trees : List Tree) → Counts next (allDeclaredLocals (resolveBody frames next trees).1) (resolveBody frames next trees).2
  | [] => .nil next
  | tree :: rest => (counts_resolve frames next tree).append (counts_resolveBody _ _ rest)

end

theorem counts_resolveMember (frames : Frames) (next : Nat) (tree : Tree) :
    Counts next (tree.resolveMember frames next).1.declaredLocals (tree.resolveMember frames next).2 := by
  cases tree with
  | varDecl => exact .nil next
  | _ => exact counts_resolve frames next _

theorem counts_resolveMembers (frames : Frames) (next : Nat) (trees : List Tree) :
    Counts next ((resolveMembers frames next trees).1.flatMap declaredLocals) (resolveMembers frames next trees).2 := by
  induction trees generalizing frames next with
  | nil => exact .nil next
  | cons tree rest ih => exact (counts_resolveMember frames next tree).append (ih _ _)

/-- The locals of a program are declared under the numbers one, two, three and so on, each once and in the order of their
declarations. -/
theorem declaredLocals_resolveProgram (program : List Tree) :
    ∃ count, (resolveProgram program).flatMap declaredLocals = List.range' 1 count := by
  obtain ⟨count, hdeclared, -⟩ := counts_resolveMembers [[]] 1 program
  exact ⟨count, hdeclared⟩

/-! ### Notes

The walk never looks at a note, so it leaves a tree alone as soon as it leaves the bare tree alone. -/

variable {frames : Frames} {next : Nat}

theorem resolveValue_of_bare {tree : Tree} (hbare : tree.bare.resolveValue frames = tree.bare) : tree.resolveValue frames = tree := by
  have hall {trees : List Tree} (htrees : ∀ tree ∈ trees, tree.bare.resolveValue frames = tree.bare → tree.resolveValue frames = tree)
      (hbare : ∀ tree ∈ trees, tree.bare.resolveValue frames = tree.bare) : trees.map (resolveValue frames) = trees := by
    simpa using map_congr_left fun tree htree => htrees tree htree (hbare tree htree)
  induction tree using of_children with
  | hstep tree ih => cases tree <;> simp_all [resolveValue, resolveValues_eq_map, children]

theorem optionResolve_of_bare {tree : Option Tree} (hbare : (tree.map bare).map (resolveValue frames) = tree.map bare) :
    tree.map (resolveValue frames) = tree := by
  cases tree with
  | none => rfl
  | some tree => exact congrArg some (resolveValue_of_bare (Option.some.inj hbare))

theorem behind_bare (frames : Frames) (next : Nat) (tree : Tree) : tree.bare.behind frames next = tree.behind frames next := by
  cases tree <;> rfl

theorem globalsBehind_bare (frames : Frames) (tree : Tree) : tree.bare.globalsBehind frames = tree.globalsBehind frames := by
  cases tree <;> rfl

/-- A tree that the walk leaves alone if it leaves the bare tree alone. -/
def IgnoresNotes (tree : Tree) : Prop := ∀ {frames : Frames} {next : Nat}, (tree.bare.resolve frames next).1 = tree.bare →
  tree.resolve frames next = (tree, (tree.bare.resolve frames next).2)

theorem resolveBody_of_bare {trees : List Tree} (htrees : ∀ tree ∈ trees, tree.IgnoresNotes)
    (hbare : (resolveBody frames next (trees.map bare)).1 = trees.map bare) :
    resolveBody frames next trees = (trees, (resolveBody frames next (trees.map bare)).2) := by
  induction trees generalizing frames next with
  | nil => rfl
  | cons tree rest ih =>
    injection hbare with htree hrest
    rw [behind_bare] at hrest
    obtain ⟨htree', hrest'⟩ := forall_mem_cons.1 htrees
    simp only [resolveBody, map_cons, htree' htree, ih hrest' hrest, behind_bare]

theorem resolveElse_of_bare {tree : Option Tree} (htree : ∀ given ∈ tree, given.IgnoresNotes)
    (hbare : (resolveElse frames next (tree.map bare)).1 = tree.map bare) :
    resolveElse frames next tree = (tree, (resolveElse frames next (tree.map bare)).2) := by
  cases tree with
  | none => rfl
  | some tree => simp only [resolveElse, Option.map_some, htree tree rfl (Option.some.inj hbare)]

theorem resolveParameters_of_bare {parameters : List Tree}
    (hbare : (resolveParameters frames next (parameters.map bare)).1 = parameters.map bare) :
    resolveParameters frames next parameters = (parameters, (resolveParameters frames next (parameters.map bare)).2) := by
  induction parameters generalizing frames next with
  | nil => rfl
  | cons parameter rest ih =>
    cases parameter with
    | var =>
      injection hbare with hparameter hrest
      injection hparameter with _ _ hsymbol
      subst hsymbol
      simp only [resolveParameters, map_cons, bare, ih hrest]
    | _ => simp_all [resolveParameters]

theorem resolve_of_bare (tree : Tree) : tree.IgnoresNotes := by
  induction tree using of_children with
  | hstep tree ih =>
    intro frames next hbare
    cases tree with
      (simp only [children, forall_mem_cons, Option.mem_toList] at ih
       simp only [bare, bareAll_eq_map, bareOption_eq_map] at hbare ⊢)
    | varDecl | ret => simp_all [resolve, optionResolve_of_bare]
    | block =>
      injection hbare with _ hstatements
      simp only [resolve, resolveBody_of_bare ih hstatements]
    | ifElse =>
      injection hbare with _ hcondition hpositive hnegative
      simp only [resolve, resolveValue_of_bare hcondition, ih.2.1 hpositive, resolveElse_of_bare ih.2.2 hnegative]
    | whileLoop =>
      injection hbare with _ hcondition hbody hstep
      simp only [resolve, resolveValue_of_bare hcondition, ih.2.1 hbody, optionResolve_of_bare hstep]
    | funcDecl =>
      injection hbare with _ _ _ hparameters hbody
      simp only [resolve, resolveParameters_of_bare hparameters, ih.1 hbody]
    | classDecl =>
      injection hbare with _ _ hmethods
      simp only [resolve, resolveBody_of_bare ih hmethods]
    | _ => exact Prod.ext (resolveValue_of_bare (by simpa [resolve] using hbare)) rfl
theorem resolveMember_of_bare {tree : Tree} (hbare : (tree.bare.resolveMember frames next).1 = tree.bare) :
    tree.resolveMember frames next = (tree, (tree.bare.resolveMember frames next).2) := by
  cases tree with
  | varDecl note name symbol managed initial =>
    injection hbare with _ _ hsymbol _ hinitial
    rw [resolveMember, optionResolve_of_bare (bareOption_eq_map initial ▸ hinitial), hsymbol]
    rfl
  | _ => exact resolve_of_bare _ hbare

theorem resolveMembers_of_bare {trees : List Tree}
    (hbare : (resolveMembers frames next (trees.map bare)).1 = trees.map bare) :
    (resolveMembers frames next trees).1 = trees := by
  induction trees generalizing frames next with
  | nil => rfl
  | cons tree rest ih =>
    injection hbare with htree hrest
    rw [globalsBehind_bare] at hrest
    have hmember := resolveMember_of_bare htree
    simp only [resolveMembers, hmember]
    exact congrArg _ (ih hrest)

end Tree

end NanScript
