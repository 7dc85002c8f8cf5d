import NanScript.Proofs.Allocation.Recorded
import NanScript.Proofs.Emission.Piece

/-!
# The parts of a tree and of its code

The parts of the code of a tree are the codes of its children, but for two of them: a name that is called is not a part, and of
a method that is called only the object is. So what holds of all lines of the emitter itself holds of all lines, and what holds
of the trees of all parts holds of all nodes.
-/

namespace NanScript

open Piece List

namespace Piece

variable {pieces rest : List Piece}

/-- The lines that are of no part. -/
def own (pieces : List Piece) : Code :=
  pieces.flatMap fun
    | lines code => code
    | part .. => []

@[simp] theorem own_nil : own [] = [] := rfl

@[simp] theorem own_lines {code : Code} : own (.lines code :: rest) = code ++ own rest := rfl

@[simp] theorem own_part {site : Site} {made : Code} {next : Nat} : own (.part site made next :: rest) = own rest := rfl

@[simp] theorem own_append {front back : List Piece} : own (front ++ back) = own front ++ own back := flatMap_append

theorem mem_all {line : Line} :
    line ∈ all pieces ↔ line ∈ own pieces ∨ ∃ site made next, .part site made next ∈ pieces ∧ line ∈ made := by
  induction pieces with
  | nil => simp
  | cons piece rest ih =>
    cases piece with
    | lines code => simp [ih, or_assoc]
    | part site made next =>
      simp only [all_part, own_part, mem_append, ih, mem_cons, part.injEq]
      constructor
      · rintro (hmade | hrest | ⟨site', made', next', hpart, hline⟩)
        · exact .inr ⟨site, made, next, .inl ⟨rfl, rfl, rfl⟩, hmade⟩
        · exact .inl hrest
        · exact .inr ⟨site', made', next', .inr hpart, hline⟩
      · rintro (hrest | ⟨site', made', next', ⟨rfl, rfl, rfl⟩ | hpart, hline⟩)
        · exact .inr (.inl hrest)
        · exact .inl hline
        · exact .inr (.inr ⟨site', made', next', hpart, hline⟩)

theorem own_subset : own pieces ⊆ all pieces := fun _ hline => mem_all.2 (.inl hline)

theorem made_subset {site : Site} {made : Code} {next : Nat} (hpart : .part site made next ∈ pieces) : made ⊆ all pieces :=
  fun _ hline => mem_all.2 (.inr ⟨site, made, next, hpart, hline⟩)

theorem Each.imp {property property' : Site → Code → Nat → Prop} (heach : Each property pieces)
    (himp : ∀ site made next, property site made next → property' site made next) : Each property' pieces :=
  fun site made next hpart => himp site made next (heach site made next hpart)

/-- The trees that the parts are of, each with the loop that its code is in. -/
def asked (pieces : List Piece) : List (Option LoopLabels × Tree) :=
  pieces.filterMap fun
    | lines _ => none
    | part site _ _ => some (site.loop, site.tree)

theorem mem_asked {loop : Option LoopLabels} {tree : Tree} :
    (loop, tree) ∈ asked pieces ↔ ∃ site made next, .part site made next ∈ pieces ∧ site.loop = loop ∧ site.tree = tree := by
  rw [asked, mem_filterMap]
  constructor
  · rintro ⟨_ | ⟨site, made, next⟩, hpiece, hsame⟩
    · cases hsame
    · cases hsame
      exact ⟨site, made, next, hpiece, rfl, rfl⟩
  · rintro ⟨site, made, next, hpart, rfl, rfl⟩
    exact ⟨_, hpart, rfl⟩

end Piece

namespace Site

open NanScript.Tree

variable {loop : Option LoopLabels} {depth number next : Nat} {pieces : List Piece} {outline : Outline} {allocation : Allocation}

/-! ### Parts are of the tree -/

variable {trees : List Tree}

/-- The parts are those of the trees, all in the same loop. -/
def AskedFor (loop : Option LoopLabels) (trees : List Tree) (pieces : List Piece) : Prop :=
  (asked pieces).Perm (trees.map fun tree => (loop, tree))

theorem Sequence.askedFor (hsequence : Sequence loop depth trees number pieces next) : AskedFor loop trees pieces := by
  induction hsequence with
  | nil => exact .nil
  | cons _ ih => exact .cons _ ih

theorem Items.askedFor (hitems : Items loop depth trees number pieces next) : AskedFor loop trees pieces := by
  induction hitems with
  | nil => exact .nil
  | cons _ ih => exact .cons _ ih

theorem Arguments.askedFor (harguments : Arguments loop depth trees number pieces next) : AskedFor loop trees pieces := by
  induction harguments with
  | nil => exact .nil
  | cons _ ih =>
    rw [AskedFor, asked, filterMap_append]
    exact perm_append_comm.trans (.cons _ ih)

variable {tree : Option Tree}

theorem OrNull.askedFor (hvalue : OrNull loop depth tree number pieces next) : AskedFor loop tree.toList pieces := by
  cases hvalue <;> exact .refl _

section

variable (hasked : AskedFor loop trees pieces)

include hasked

theorem AskedFor.each_part : Each (fun site _ _ => site.loop = loop ∧ site.tree ∈ trees) pieces := by
  intro site made next hpart
  have hmem := hasked.subset (mem_asked.2 ⟨site, made, next, hpart, rfl, rfl⟩)
  obtain ⟨tree, htree, hsame⟩ := mem_map.1 hmem
  cases hsame
  exact ⟨rfl, htree⟩

theorem AskedFor.exists_part {tree : Tree} (htree : tree ∈ trees) :
    ∃ site made next, .part site made next ∈ pieces ∧ site.tree = tree := by
  obtain ⟨site, made, next, hpart, -, htree⟩ := mem_asked.1 (hasked.symm.subset (mem_map_of_mem htree))
  exact ⟨site, made, next, hpart, htree⟩

end

/-- The tree of the site is below a tree. -/
def Within (tree : Tree) (site : Site) (_ : Code) (_ : Nat) : Prop := ∃ child ∈ tree.children, site.tree ∈ child.nodes

variable {site : Site} {made : Code}

theorem Within.nodes_subset {tree : Tree} (hwithin : site.Within tree made next) : site.tree.nodes ⊆ tree.nodes := by
  obtain ⟨child, hchild, hnode⟩ := hwithin
  exact Tree.nodes_subset (mem_nodes_of_child hchild hnode)

theorem within_of_child {tree : Tree} (hchild : site.tree ∈ tree.children) : site.Within tree made next :=
  ⟨_, hchild, mem_nodes_self _⟩

theorem Shape.within (hshape : site.Shape outline allocation pieces next) : Each (Within site.tree) pieces := by
  have hchildren {loop : Option LoopLabels} {trees : List Tree} {tree : Tree} {pieces : List Piece}
      (hasked : AskedFor loop trees pieces) (hsubset : trees ⊆ tree.children) : Each (Within tree) pieces :=
    hasked.each_part.imp fun _ _ _ hpart => within_of_child (hsubset hpart.2)
  cases hshape with
    simp only [each_lines, each_part, each_append, each_nil, and_true]
  | array hitems => exact hchildren hitems.askedFor (Subset.refl _)
  | block hstatements => exact hchildren hstatements.askedFor (Subset.refl _)
  | varDecl hvalue | ret hvalue => exact hchildren hvalue.askedFor (Subset.refl _)
  | assignLocal | assignGlobal | unary | get => exact within_of_child mem_cons_self
  | binary | shortCircuit | set | indexGet =>
    exact ⟨within_of_child (by simp [children]), within_of_child (by simp [children])⟩
  | ternary | indexSet =>
    exact ⟨within_of_child (by simp [children]), within_of_child (by simp [children]), within_of_child (by simp [children])⟩
  | callMethod harguments =>
    exact ⟨hchildren harguments.askedFor (subset_cons_self _ _), _, mem_cons_self,
      mem_nodes_of_child mem_cons_self (mem_nodes_self _)⟩
  | callDirect _ _ harguments => exact hchildren harguments.askedFor (subset_cons_self _ _)
  | callValue _ _ harguments =>
    exact ⟨hchildren harguments.askedFor (subset_cons_self _ _), within_of_child mem_cons_self⟩
  | ifElse hoption | whileLoop hoption =>
    exact ⟨within_of_child (by simp [children]), within_of_child (by simp [children]),
      hchildren hoption.sequence.askedFor fun _ hmem => mem_cons_of_mem _ (mem_cons_of_mem _ hmem)⟩

/-- What holds of a site as soon as it holds of the parts holds of every site that the emitter gives code for. -/
@[elab_as_elim] theorem of_parts {property : Site → Code → Nat → Prop} (hgiven : site.Given outline allocation made next)
    (hstep : ∀ site pieces next, site.Shape outline allocation pieces next → Each (Given outline allocation) pieces →
      Each property pieces → property site (all pieces) next) : property site made next := by
  suffices heach : ∀ tree : Tree, tree.Each fun node => ∀ site made next, site.tree = node →
      site.Given outline allocation made next → property site made next from
    heach site.tree _ (mem_nodes_self _) site made next rfl hgiven
  intro tree
  induction tree using of_children with
  | hstep tree ih =>
    refine each_iff.2 ⟨?_, ih⟩
    rintro site made next rfl hgiven
    obtain ⟨pieces, hshape, hparts, rfl⟩ := shape_of_emits hgiven
    refine hstep site pieces next hshape hparts fun part made next hpart => ?_
    obtain ⟨child, hchild, hnode⟩ := hshape.within part made next hpart
    exact ih child hchild _ hnode part made next rfl (hparts part made next hpart)

theorem Given.toMade (hgiven : site.Given outline allocation made next) : site.Made outline allocation made next :=
  of_parts hgiven fun _ _ _ hshape _ hparts => .intro hshape hparts

/-! ### Parts without lines of their own -/

theorem Sequence.own_eq (hsequence : Sequence loop depth trees number pieces next) : own pieces = [] := by
  induction hsequence with
  | nil => rfl
  | cons _ ih => exact ih

/-! ### The tree is of its parts -/

theorem direct_eq_some {callee : Tree} {name : String} (hdirect : Emit.direct? ⟨outline, allocation, loop⟩ callee = some name) :
    ∃ note, callee = .var note name .unresolved ∧ outline.isGlobal name = false := by
  cases callee with
  | var note other symbol =>
    cases symbol with
    | unresolved =>
      simp only [Emit.direct?, Symbol.isUnresolved, Bool.true_and, Bool.not_eq_true', Option.ite_none_right_eq_some,
        Option.some.injEq] at hdirect
      obtain ⟨hlisted, rfl⟩ := hdirect
      exact ⟨note, rfl, hlisted⟩
    | _ => contradiction
  | _ => contradiction

/-- If the tree is plain, all its nodes have a property. -/
def Spreads (property : Tree → Prop) (site : Site) (_ : Code) (_ : Nat) : Prop :=
  site.tree.Each IsPlain → site.tree.Each property

variable {property : Tree → Prop}

theorem AskedFor.each (hasked : AskedFor loop trees pieces) (hparts : Each (Spreads property) pieces)
    (hplain : ∀ tree ∈ trees, tree.Each IsPlain) : ∀ tree ∈ trees, tree.Each property := by
  intro tree htree
  obtain ⟨site, made, next, hpart, rfl⟩ := hasked.exists_part htree
  exact hparts site made next hpart (hplain _ htree)

/-- What holds of a tree and of its parts holds of all its nodes, if it holds of the callees that are not parts. -/
theorem Shape.each (hshape : site.Shape outline allocation pieces next) (hplain : site.tree.Each IsPlain)
    (hparts : Each (Spreads property) pieces) (hself : property site.tree)
    (hget : ∀ note object name, property (.get note object name))
    (hdirect : ∀ note callee arguments name, site.tree = .call note callee arguments →
      Emit.direct? ⟨outline, allocation, site.loop⟩ callee = some name → property callee) :
    site.tree.Each property := by
  obtain ⟨hplain', hchildren⟩ := each_iff.1 hplain
  refine each_iff.2 ⟨hself, ?_⟩
  cases hshape with
    try simp only [each_lines, each_part, each_append, each_nil, and_true] at hparts
  | funcDecl | classDecl => exact hplain'.elim
  | int | float | bool | null | str | new | varLocal | varGlobal | varFunction | breakLoop | continueLoop => simp [children]
  | array hitems => exact hitems.askedFor.each hparts hchildren
  | block hstatements => exact hstatements.askedFor.each hparts hchildren
  | varDecl hvalue | ret hvalue => exact hvalue.askedFor.each hparts hchildren
  | assignLocal | assignGlobal | unary | get =>
    exact forall_mem_singleton.2 (hparts (forall_mem_singleton.1 hchildren))
  | binary | shortCircuit | set | indexGet =>
    simp only [children, mem_cons, not_mem_nil, or_false, forall_eq_or_imp, forall_eq] at hchildren ⊢
    exact ⟨hparts.1 hchildren.1, hparts.2 hchildren.2⟩
  | ternary | indexSet =>
    simp only [children, mem_cons, not_mem_nil, or_false, forall_eq_or_imp, forall_eq] at hchildren ⊢
    exact ⟨hparts.1 hchildren.1, hparts.2.1 hchildren.2.1, hparts.2.2 hchildren.2.2⟩
  | callMethod harguments =>
    obtain ⟨hmethod, harguments'⟩ := forall_mem_cons.1 hchildren
    have hobject := hparts.2 ((each_iff.1 hmethod).2 _ mem_cons_self)
    refine forall_mem_cons.2 ⟨each_iff.2 ⟨hget _ _ _, ?_⟩, harguments.askedFor.each hparts.1 harguments'⟩
    exact forall_mem_singleton.2 hobject
  | @callDirect _ _ _ callee _ _ _ _ name _ hname harguments =>
    obtain ⟨-, harguments'⟩ := forall_mem_cons.1 hchildren
    refine forall_mem_cons.2 ⟨each_iff.2 ⟨hdirect _ _ _ _ rfl hname, ?_⟩, harguments.askedFor.each hparts harguments'⟩
    obtain ⟨_, rfl, -⟩ := direct_eq_some hname
    simp [children]
  | callValue _ _ harguments =>
    obtain ⟨hcallee, harguments'⟩ := forall_mem_cons.1 hchildren
    exact forall_mem_cons.2 ⟨hparts.2 hcallee, harguments.askedFor.each hparts.1 harguments'⟩
  | ifElse hoption | whileLoop hoption =>
    simp only [children, forall_mem_cons] at hchildren ⊢
    exact ⟨hparts.1 hchildren.1, hparts.2.1 hchildren.2.1, hoption.sequence.askedFor.each hparts.2.2 hchildren.2.2⟩

end Site

end NanScript
