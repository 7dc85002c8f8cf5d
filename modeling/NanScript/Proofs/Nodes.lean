import NanScript.Tree

/-!
# The nodes of a tree

What is said of a program without regard to where it stands, such as that it makes an object of some class, is said of the
nodes of its trees: the trees themselves and everything below them.
-/

namespace NanScript.Tree

open List

/-- The trees right below a tree, in the order they are written. -/
def children : Tree → List Tree
  | int .. | float .. | bool .. | null _ | str .. | var .. | new .. | breakLoop _ | continueLoop _ => []
  | array _ items => items
  | assign _ _ _ value => [value]
  | binary _ _ left right => [left, right]
  | unary _ _ operand => [operand]
  | ternary _ condition positive negative => [condition, positive, negative]
  | call _ callee arguments => callee :: arguments
  | get _ object _ => [object]
  | set _ object _ value => [object, value]
  | indexGet _ object index => [object, index]
  | indexSet _ object index value => [object, index, value]
  | varDecl _ _ _ _ initial => initial.toList
  | block _ statements => statements
  | ifElse _ condition positive negative => condition :: positive :: negative.toList
  | whileLoop _ condition body step => condition :: body :: step.toList
  | ret _ value => value.toList
  | funcDecl _ _ _ parameters body => body :: parameters
  | classDecl _ _ methods => methods

mutual

/-- Everything below a tree. -/
def inner : Tree → List Tree
  | int .. | float .. | bool .. | null _ | str .. | var .. | new .. | breakLoop _ | continueLoop _ => []
  | array _ items => allNodes items
  | assign _ _ _ value => value :: value.inner
  | binary _ _ left right => left :: left.inner ++ right :: right.inner
  | unary _ _ operand => operand :: operand.inner
  | ternary _ condition positive negative =>
    condition :: condition.inner ++ (positive :: positive.inner ++ negative :: negative.inner)
  | call _ callee arguments => callee :: callee.inner ++ allNodes arguments
  | get _ object _ => object :: object.inner
  | set _ object _ value => object :: object.inner ++ value :: value.inner
  | indexGet _ object index => object :: object.inner ++ index :: index.inner
  | indexSet _ object index value => object :: object.inner ++ (index :: index.inner ++ value :: value.inner)
  | varDecl _ _ _ _ initial => optionNodes initial
  | block _ statements => allNodes statements
  | ifElse _ condition positive negative =>
    condition :: condition.inner ++ (positive :: positive.inner ++ optionNodes negative)
  | whileLoop _ condition body step => condition :: condition.inner ++ (body :: body.inner ++ optionNodes step)
  | ret _ value => optionNodes value
  | funcDecl _ _ _ parameters body => body :: body.inner ++ allNodes parameters
  | classDecl _ _ methods => allNodes methods

def allNodes : List Tree → List Tree
  | [] => []
  | tree :: rest => tree :: tree.inner ++ allNodes rest

def optionNodes : Option Tree → List Tree
  | none => []
  | some tree => tree :: tree.inner

end

/-- A tree and everything below it. -/
def nodes (tree : Tree) : List Tree := tree :: tree.inner

theorem allNodes_eq (trees : List Tree) : allNodes trees = trees.flatMap nodes := by
  induction trees with
  | nil => rfl
  | cons tree rest ih => rw [allNodes, ih, flatMap_cons, nodes]

theorem optionNodes_eq (tree : Option Tree) : optionNodes tree = tree.toList.flatMap nodes := by
  cases tree <;> simp [optionNodes, nodes]

theorem nodes_eq (tree : Tree) : tree.nodes = tree :: tree.children.flatMap nodes := by
  cases tree <;> simp [nodes, inner, children, allNodes_eq, optionNodes_eq]

theorem mem_nodes_self (tree : Tree) : tree ∈ tree.nodes := mem_cons_self

variable {tree node : Tree}

theorem mem_nodes_of_child {child : Tree} (hchild : child ∈ tree.children) (hnode : node ∈ child.nodes) :
    node ∈ tree.nodes := by
  rw [nodes_eq]
  exact mem_cons_of_mem _ (mem_flatMap.2 ⟨child, hchild, hnode⟩)

variable {property : Tree → Prop}

/-- What holds of a tree as soon as it holds of its children holds of every tree. -/
theorem of_children (hstep : ∀ tree : Tree, (∀ child ∈ tree.children, property child) → property tree) (tree : Tree) :
    property tree := by
  generalize hcount : tree.nodes.length = count
  induction count using Nat.strongRecOn generalizing tree with
  | ind count ih =>
    refine hstep tree fun child hchild => ih child.nodes.length ?_ child rfl
    rw [← hcount, nodes_eq tree, length_cons, Nat.lt_succ_iff]
    exact (sublist_flatten_of_mem (mem_map_of_mem hchild)).length_le

theorem nodes_subset (hnode : node ∈ tree.nodes) : node.nodes ⊆ tree.nodes := by
  induction tree using of_children with
  | hstep tree ih =>
    rw [nodes_eq tree] at hnode
    rcases mem_cons.1 hnode with rfl | hbelow
    · exact Subset.refl _
    · obtain ⟨child, hchild, hnode⟩ := mem_flatMap.1 hbelow
      exact Subset.trans (ih child hchild hnode) fun _ => mem_nodes_of_child hchild

theorem mem_nodes_child {child : Tree} (hnode : node ∈ tree.nodes) (hchild : child ∈ node.children) :
    child ∈ tree.nodes := nodes_subset hnode (mem_nodes_of_child hchild child.mem_nodes_self)

/-- All nodes of a tree have a property. -/
def Each (property : Tree → Prop) (tree : Tree) : Prop := ∀ node ∈ tree.nodes, property node

theorem each_iff : tree.Each property ↔ property tree ∧ ∀ child ∈ tree.children, child.Each property := by
  unfold Each
  rw [nodes_eq]
  simp only [forall_mem_cons, mem_flatMap]
  refine and_congr Iff.rfl ⟨fun hbelow child hchild node hnode => hbelow node ⟨child, hchild, hnode⟩, ?_⟩
  rintro hchildren node ⟨child, hchild, hnode⟩
  exact hchildren child hchild node hnode

theorem Each.imp {property' : Tree → Prop} (htree : tree.Each property) (himp : ∀ node, property node → property' node)
    : tree.Each property' := fun node hnode => himp node (htree node hnode)

/-! ### Jumps -/

mutual

/-- The jumps of a tree that leave no loop inside it, by their keywords. -/
def jumps : Tree → List String
  | breakLoop _ => ["break"]
  | continueLoop _ => ["continue"]
  | int .. | float .. | bool .. | null _ | str .. | var .. | new .. | funcDecl .. | classDecl .. => []
  | array _ items => allJumps items
  | assign _ _ _ value => value.jumps
  | binary _ _ left right => left.jumps ++ right.jumps
  | unary _ _ operand => operand.jumps
  | ternary _ condition positive negative => condition.jumps ++ (positive.jumps ++ negative.jumps)
  | call _ callee arguments => callee.jumps ++ allJumps arguments
  | get _ object _ => object.jumps
  | set _ object _ value => object.jumps ++ value.jumps
  | indexGet _ object index => object.jumps ++ index.jumps
  | indexSet _ object index value => object.jumps ++ (index.jumps ++ value.jumps)
  | varDecl _ _ _ _ initial => optionJumps initial
  | block _ statements => allJumps statements
  | ifElse _ condition positive negative => condition.jumps ++ (positive.jumps ++ optionJumps negative)
  | whileLoop _ condition _ step => condition.jumps ++ optionJumps step
  | ret _ value => optionJumps value

def allJumps : List Tree → List String
  | [] => []
  | tree :: rest => tree.jumps ++ allJumps rest

def optionJumps : Option Tree → List String
  | none => []
  | some tree => tree.jumps

end

theorem jumps_subset_allJumps {trees : List Tree} (htree : tree ∈ trees) : tree.jumps ⊆ allJumps trees := by
  induction trees with
  | nil => contradiction
  | cons first rest ih =>
    rcases mem_cons.1 htree with rfl | htree
    · exact subset_append_left _ _
    · exact Subset.trans (ih htree) (subset_append_right _ _)

end NanScript.Tree
