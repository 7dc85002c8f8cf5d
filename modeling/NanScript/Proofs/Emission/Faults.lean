import NanScript.Proofs.Emission.Marks
import NanScript.Proofs.Nodes

/-!
# Why there is no code

If the emitter fails, then for the fault of a single node, which is somewhere in the tree: a class or a variable that is not
declared, a local without a place, or a jump that is in no loop. `Blamed` says so of a tree and an error.
-/

namespace NanScript

open NanScript.Tree

attribute [local simp] Tree.children Tree.jumps

/-! ### Faults -/

/-- Why there is no code for a node. -/
inductive Tree.Fault (outline : Outline) (allocation : Allocation) : Tree → CodegenError → Prop
  | unknownClass {note : Note} {name : String} (hclass : outline.methods? name = none) :
      Fault outline allocation (.new note name) (.unknownClass name)
  | undefinedVariable {note : Note} {name : String} {symbol : Symbol} {value : Tree} (hsymbol : symbol.local? = none)
      (hglobal : (symbol.isGlobal || outline.isGlobal name) = false) :
      Fault outline allocation (.assign note name symbol value) (.undefinedVariable name)
  | unplacedUse {note : Note} {name : String} {id : Nat} (hlocation : allocation.location? id = none) :
      Fault outline allocation (.var note name (.localVar id)) (.unallocated id)
  | unplacedTarget {note : Note} {name : String} {id : Nat} {value : Tree} (hlocation : allocation.location? id = none) :
      Fault outline allocation (.assign note name (.localVar id) value) (.unallocated id)
  | unplacedDeclaration {note : Note} {name : String} {id : Nat} {managed : Bool} {initial : Option Tree}
      (hlocation : allocation.location? id = none) :
      Fault outline allocation (.varDecl note name (.localVar id) managed initial) (.unallocated id)
  | outerDeclaration {note : Note} {name : String} {symbol : Symbol} {managed : Bool} {initial : Option Tree}
      (hsymbol : symbol.local? = none) : Fault outline allocation (.varDecl note name symbol managed initial) (.unallocated 0)

/-- A tree is to blame for an error. -/
def Blamed (around : Surroundings) (tree : Tree) (problem : CodegenError) : Prop :=
  (∃ node ∈ tree.nodes, node.Fault around.outline around.allocation problem) ∨
    around.loop = none ∧ ∃ keyword ∈ tree.jumps, problem = .strayJump keyword

namespace Blamed

variable {around : Surroundings} {tree child : Tree} {problem : CodegenError}

theorem node (hfault : tree.Fault around.outline around.allocation problem) : Blamed around tree problem :=
  .inl ⟨tree, tree.mem_nodes_self, hfault⟩

theorem of_child (hblamed : Blamed around child problem) (hchild : child ∈ tree.children)
    (hjumps : child.jumps ⊆ tree.jumps) : Blamed around tree problem := by
  rcases hblamed with ⟨node, hnode, hfault⟩ | ⟨hloop, keyword, hkeyword, hproblem⟩
  · exact .inl ⟨node, mem_nodes_of_child hchild hnode, hfault⟩
  · exact .inr ⟨hloop, keyword, hjumps hkeyword, hproblem⟩

end Blamed

/-! ### Failing computations -/

namespace Emit

variable {α β : Type}

/-- The computation fails. -/
def Fails (computation : Emit α) (first : Nat) (problem : CodegenError) : Prop := computation first = .error problem

variable {first : Nat} {problem : CodegenError}

@[simp] theorem not_fails_pure {made : α} : ¬ Fails (pure made) first problem := by
  intro hfails
  have herror : Except.ok (made, first) = Except.error problem := hfails
  contradiction

@[simp] theorem not_fails_label : ¬ Fails label first problem := by
  intro hfails
  have herror : Except.ok (first, first + 1) = Except.error problem := hfails
  contradiction

@[simp] theorem fails_throw {error : CodegenError} : Fails (throw error : Emit α) first problem ↔ error = problem := by
  constructor
  · exact Except.error.inj
  · rintro rfl
    rfl

@[simp] theorem fails_bind {computation : Emit α} {continuation : α → Emit β} :
    Fails (computation >>= continuation) first problem ↔ Fails computation first problem ∨
      ∃ made middle, Emits computation first made middle ∧ Fails (continuation made) middle problem := by
  unfold Fails Emits
  show (computation first >>= fun (made, middle) => continuation made middle) = _ ↔ _
  cases computation first with
  | error error => simp [bind, Except.bind]
  | ok made =>
    obtain ⟨made, middle⟩ := made
    constructor
    · intro hfails
      exact .inr ⟨made, middle, rfl, hfails⟩
    · rintro (hfails | ⟨_, _, hmade, hfails⟩)
      · contradiction
      · obtain ⟨rfl, rfl⟩ := Prod.mk.inj (Except.ok.inj hmade)
        exact hfails

@[simp] theorem not_fails_text {content : String} : ¬ Fails (text content) first problem := by
  simp only [text, fails_bind, not_fails_label, not_fails_pure, and_false, exists_false, or_false, not_false_eq_true]

variable {around : Surroundings} {first depth : Nat} {problem : CodegenError}

theorem fails_location {symbol : Symbol} : Fails (location around symbol) first problem ↔
    (∃ id, symbol = .localVar id ∧ around.allocation.location? id = none ∧ problem = .unallocated id) ∨
      symbol.local? = none ∧ problem = .unallocated 0 := by
  unfold location
  cases symbol with
  | localVar id => cases hlocation : around.allocation.location? id <;> simp [Symbol.local?, hlocation, eq_comm]
  | global | unresolved => simp [Symbol.local?, eq_comm]

/-! ### Who is to blame -/

/-- Whenever the computation fails, the tree is to blame. -/
def Accuses (around : Surroundings) (tree : Tree) (computation : Emit α) : Prop :=
  ∀ ⦃first problem⦄, Fails computation first problem → Blamed around tree problem

namespace Accuses

variable {tree part : Tree} {computation : Emit α} {continuation : α → Emit β}

theorem pure {made : α} : Accuses around tree (pure made) := fun _ _ hfails => absurd hfails not_fails_pure

theorem label : Accuses around tree label := fun _ _ hfails => absurd hfails not_fails_label

theorem text {content : String} : Accuses around tree (text content) := fun _ _ hfails => absurd hfails not_fails_text

theorem throw {error : CodegenError} (hblamed : Blamed around tree error) : Accuses around tree (throw error : Emit α) := by
  rintro _ _ ⟨⟩
  exact hblamed

theorem bind (hcomputation : Accuses around tree computation) (hcontinuation : ∀ made, Accuses around tree (continuation made)) :
    Accuses around tree (computation >>= continuation) := by
  intro _ _ hfails
  rcases fails_bind.1 hfails with hfails | ⟨made, _, -, hfails⟩
  · exact hcomputation hfails
  · exact hcontinuation made hfails

theorem child (hcomputation : Accuses around part computation) (hpart : part ∈ tree.children)
    (hjumps : part.jumps ⊆ tree.jumps) : Accuses around tree computation :=
  fun _ _ hfails => (hcomputation hfails).of_child hpart hjumps

variable {symbol : Symbol}

theorem location
    (hunplaced : ∀ id, symbol = .localVar id → around.allocation.location? id = none → Blamed around tree (.unallocated id))
    (houter : symbol.local? = none → Blamed around tree (.unallocated 0)) :
    Accuses around tree (location around symbol) := by
  intro _ _ hfails
  rcases fails_location.1 hfails with ⟨id, hsymbol, hlocation, rfl⟩ | ⟨hsymbol, rfl⟩
  · exact hunplaced id hsymbol hlocation
  · exact houter hsymbol

theorem methods {list : List Tree} : Accuses around tree (Emit.methods depth list) := by
  induction list with
  | nil => exact .pure
  | cons first rest ih =>
    cases first with
    | funcDecl => exact .bind .text fun _ => .bind ih fun _ => .pure
    | _ => exact ih

theorem load {note : Note} {name : String} : Accuses around (.var note name symbol) (load around name symbol) := by
  cases symbol with
  | localVar id =>
    refine .bind (.location ?_ nofun) fun _ => .pure
    rintro _ ⟨⟩ hlocation
    exact .node (.unplacedUse hlocation)
  | global | unresolved =>
    simp only [Emit.load]
    split <;> exact .pure

theorem store {note : Note} {name : String} {value : Tree} :
    Accuses around (.assign note name symbol value) (store around name symbol) := by
  cases symbol with
  | localVar id =>
    refine .bind (.location ?_ nofun) fun _ => .pure
    rintro _ ⟨⟩ hlocation
    exact .node (.unplacedTarget hlocation)
  | global | unresolved =>
    simp only [Emit.store]
    split
    · exact .pure
    · next hglobal => exact .throw (.node (.undefinedVariable rfl (Bool.eq_false_iff.2 hglobal)))

theorem innermost {keyword : String} (hkeyword : keyword ∈ tree.jumps) : Accuses around tree (innermost around keyword) := by
  rw [Emit.innermost]
  split
  · exact .pure
  · next hloop => exact .throw (.inr ⟨hloop, keyword, hkeyword, rfl⟩)

/-! ### Several trees -/

variable {trees : List Tree} (htrees : ∀ given ∈ trees, ∀ depth, Accuses around tree (code around depth given))
include htrees

theorem codeAll : Accuses around tree (codeAll around depth trees) := by
  induction trees with
  | nil => exact .pure
  | cons first rest ih =>
    obtain ⟨hfirst, hrest⟩ := List.forall_mem_cons.1 htrees
    exact .bind (hfirst depth) fun _ => .bind (ih hrest) fun _ => .pure

theorem codeItems : Accuses around tree (codeItems around depth trees) := by
  induction trees with
  | nil => exact .pure
  | cons first rest ih =>
    obtain ⟨hfirst, hrest⟩ := List.forall_mem_cons.1 htrees
    exact .bind (hfirst (depth + 1)) fun _ => .bind (ih hrest) fun _ => .pure

theorem codeArguments : Accuses around tree (codeArguments around depth trees) := by
  induction trees with
  | nil => exact .pure
  | cons first rest ih =>
    obtain ⟨hfirst, hrest⟩ := List.forall_mem_cons.1 htrees
    exact .bind (ih hrest) fun _ => .bind (hfirst (depth + rest.length)) fun _ => .pure

omit htrees

variable {option : Option Tree} (hoption : ∀ given ∈ option, ∀ depth, Accuses around tree (code around depth given))
include hoption

theorem codeOrNull : Accuses around tree (codeOrNull around depth option) := by
  cases option with
  | none => exact .pure
  | some given => exact hoption given rfl depth

theorem codeOrNothing : Accuses around tree (codeOrNothing around depth option) := by
  cases option with
  | none => exact .pure
  | some given => exact hoption given rfl depth

end Accuses

/-- If there is no code for a tree, the tree is to blame. -/
theorem blamed_code (tree : Tree) : Accuses around tree (code around depth tree) := by
  suffices heach : tree.Each fun node => ∀ around depth, Accuses around node (code around depth node) from
    heach tree tree.mem_nodes_self around depth
  induction tree using of_children with
  | hstep tree ih =>
    refine each_iff.2 ⟨fun around depth => ?_, ih⟩
    have hpart (child : Tree) (hchild : child ∈ tree.children) (hjumps : child.jumps ⊆ tree.jumps) (depth : Nat) :
        Accuses around tree (code around depth child) :=
      (ih child hchild child child.mem_nodes_self around depth).child hchild hjumps
    cases tree with try simp only [code]
    | int | float | bool | null | funcDecl | classDecl => exact .pure
    | str => exact .bind .text fun _ => .pure
    | var => exact .load
    | array _ items =>
      exact .bind (.codeItems fun item hitem => hpart item hitem (jumps_subset_allJumps hitem)) fun _ => .pure
    | block _ statements =>
      exact .codeAll fun statement hstatement => hpart statement hstatement (jumps_subset_allJumps hstatement)
    | assign =>
      simp at hpart
      exact .bind (hpart _) fun _ => .bind .store fun _ => .pure
    | binary =>
      simp at hpart
      split
      · exact .bind .label fun _ => .bind (hpart.1 _) fun _ => .bind (hpart.2 _) fun _ => .pure
      · exact .bind (hpart.1 _) fun _ => .bind (hpart.2 _) fun _ => .pure
    | unary =>
      simp at hpart
      exact .bind (hpart _) fun _ => .pure
    | ternary =>
      simp at hpart
      exact .bind .label fun _ => .bind .label fun _ => .bind (hpart.1 _) fun _ => .bind (hpart.2.1 _) fun _ =>
        .bind (hpart.2.2 _) fun _ => .pure
    | call _ callee arguments =>
      have hcallee := hpart callee List.mem_cons_self (List.subset_append_left _ _)
      have harguments : ∀ argument ∈ arguments, ∀ depth, Accuses around _ (code around depth argument) := fun argument hmem =>
        hpart argument (List.mem_cons_of_mem _ hmem)
          (List.Subset.trans (jumps_subset_allJumps hmem) (List.subset_append_right _ _))
      cases callee with
      | get inner object name =>
        have hobject (depth : Nat) : Accuses around (.get inner object name) (code around depth object) :=
          .child (ih _ List.mem_cons_self object (mem_nodes_of_child List.mem_cons_self object.mem_nodes_self) around depth)
            (by simp) (by simp)
        rw [code]
        exact .bind (.codeArguments harguments) fun _ => .bind .text fun _ =>
          .bind ((hobject _).child (by simp) (by simp)) fun _ => .pure
      | _ =>
        rw [code]
        · refine .bind (.codeArguments harguments) fun _ => ?_
          split
          · exact .pure
          · exact .bind (hcallee _) fun _ => .pure
        · exact fun _ _ _ => Tree.noConfusion
    | get =>
      simp at hpart
      exact .bind .text fun _ => .bind (hpart _) fun _ => .pure
    | set =>
      simp at hpart
      exact .bind .text fun _ => .bind (hpart.1 _) fun _ => .bind (hpart.2 _) fun _ => .pure
    | indexGet =>
      simp at hpart
      exact .bind (hpart.1 _) fun _ => .bind (hpart.2 _) fun _ => .pure
    | indexSet =>
      simp at hpart
      exact .bind (hpart.1 _) fun _ => .bind (hpart.2.1 _) fun _ => .bind (hpart.2.2 _) fun _ => .pure
    | new =>
      rw [new]
      split
      · exact .bind .methods fun _ => .pure
      · next hclass => exact .throw (.node (.unknownClass hclass))
    | varDecl _ _ symbol _ initial =>
      refine .bind (.codeOrNull fun given hgiven => ?_) fun _ => .bind (.location ?_ ?_) fun _ => .pure
      · obtain rfl : initial = some given := hgiven
        exact hpart given (by simp) (by simp [optionJumps])
      · rintro _ rfl hlocation
        exact .node (.unplacedDeclaration hlocation)
      · exact fun hsymbol => .node (.outerDeclaration hsymbol)
    | ifElse _ condition positive negative =>
      have hcondition := hpart condition (by simp) (by simp)
      have hpositive := hpart positive (by simp) (by simp)
      refine .bind .label fun _ => .bind .label fun _ => .bind (hcondition _) fun _ => .bind (hpositive _) fun _ =>
        .bind (.codeOrNothing fun given hgiven => ?_) fun _ => .pure
      obtain rfl : negative = some given := hgiven
      exact hpart given (by simp) (by simp [optionJumps])
    | whileLoop note condition body step =>
      have hcondition := hpart condition (by simp) (by simp)
      refine .bind .label fun _ => .bind .label fun _ => .bind .label fun _ => .bind .label fun _ => .bind (hcondition _) fun _ =>
        .bind (fun _ _ hfails => ?_) fun _ => .bind (.codeOrNothing fun given hgiven => ?_) fun _ => .pure
      · -- in the body there is a loop to leave
        have hbody : body ∈ children (.whileLoop note condition body step) := by simp
        rcases ih body hbody body body.mem_nodes_self _ _ hfails with ⟨node, hnode, hfault⟩ | ⟨hloop, -⟩
        · exact .inl ⟨node, mem_nodes_of_child hbody hnode, hfault⟩
        · contradiction
      · obtain rfl : step = some given := hgiven
        exact hpart given (by simp) (by simp [optionJumps])
    | ret _ value =>
      refine .bind (.codeOrNull fun given hgiven => ?_) fun _ => .pure
      obtain rfl : value = some given := hgiven
      exact hpart given (by simp) (by simp [optionJumps])
    | breakLoop | continueLoop => exact .bind (.innermost (List.mem_singleton_self _)) fun _ => .pure

end Emit

end NanScript
