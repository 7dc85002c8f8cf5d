import Mathlib.Data.List.Perm.Basic
import Mathlib.Data.List.Flatten
import Mathlib.Data.List.Nodup
import NanScript.Proofs.Arena
import NanScript.Proofs.Nodes
import NanScript.Tree.Form

/-!
# The arena holds a forest

Nodes are numbered upward, a node is made after its children, and each becomes a child or a member of a list once. So in the arena
no node is referred to twice, references to children lead downward and links to siblings upward: `Forest`. A root is a node
that nothing refers to yet.

`Holding trees arena` is what a reader works with: an arena and the trees in it that have been made and have no parent yet. A new
node takes the place of those that become its children, which are chained first if they form a list.
-/

namespace NanScript

open NanScript.Tree List

namespace Form

/-- The children of a node, of a list the first one only. -/
def references (form : Form) : List NodeId := form.children ++ form.firstChild.toList

/-- The number of children in the list of a node, if the node knows it. -/
def count? : Form → Option Nat
  | array _ count | call _ _ count | funcDecl _ _ _ count _ => some count
  | _ => none

end Form

namespace Tree

def list : Tree → List Tree
  | array _ items => items
  | call _ _ arguments => arguments
  | block _ statements => statements
  | funcDecl _ _ _ parameters _ => parameters
  | classDecl _ _ methods => methods
  | _ => []

theorem firstChild_form (tree : Tree) : tree.form.firstChild = headId tree.list := by
  cases tree <;> rfl

theorem children_form (tree : Tree) : tree.form.children ++ tree.list.map id = tree.children.map id := by
  cases tree <;> simp [form, Form.children, list, children, Option.toList_map]

theorem list_sublist_children (tree : Tree) : tree.list.Sublist tree.children := by
  cases tree <;> simp [list, children]

theorem count?_form (tree : Tree) : ∀ count ∈ tree.form.count?, tree.list.length = count := by
  cases tree <;> simp [form, Form.count?, list]

end Tree

namespace Arena

def references (arena : Arena Form) (id : NodeId) : List NodeId :=
  ((arena.get? id).map fun node => node.kind.references ++ node.next.toList).getD []

/-- No node is referred to twice, children are older than their parents and siblings come in the order of their making. Nothing
refers to the roots, and they are not chained. -/
structure Forest (arena : Arena Form) (root : NodeId → Prop) : Prop where
  packed : arena.Packed
  older : ∀ id node, arena.get? id = some node → ∀ child ∈ node.kind.references, child < id
  later : ∀ id node, arena.get? id = some node → ∀ next ∈ node.next, id < next ∧ next < arena.size
  once : ∀ id, (arena.references id).Nodup
  apart : ∀ first second, first ≠ second → (arena.references first).Disjoint (arena.references second)
  free : ∀ id, root id → ∀ other, id ∉ arena.references other
  loose : ∀ id, root id → ∃ node, arena.get? id = some node ∧ node.next = none
  counted : ∀ id node, arena.get? id = some node → ∃ ids : List NodeId, (∀ member ∈ ids, member < id) ∧
    (∀ limit, ids.length ≤ limit → arena.siblings limit node.kind.firstChild = some ids) ∧
    ∀ count ∈ node.kind.count?, ids.length = count

namespace Forest

variable {arena : Arena Form} {root : NodeId → Prop} {form : Form} {line : Nat} {ids : List NodeId}

theorem lt_size (hforest : Forest arena root) {id other : NodeId} (hid : id ∈ arena.references other) : id < arena.size := by
  unfold references at hid
  cases hnode : arena.get? other with
  | none => simp [hnode] at hid
  | some node =>
    rw [hnode, Option.map_some, Option.getD_some] at hid
    rcases mem_append.1 hid with hchild | hnext
    · exact Nat.lt_trans (hforest.older other node hnode id hchild) (hforest.packed.lt_size hnode)
    · exact (hforest.later other node hnode id (Option.mem_toList.1 hnext)).2

theorem mono (hforest : Forest arena root) {root' : NodeId → Prop} (hroot : ∀ id, root' id → root id) : Forest arena root' :=
  { hforest with
    free := fun id hid => hforest.free id (hroot id hid)
    loose := fun id hid => hforest.loose id (hroot id hid) }

theorem ne_of_member (hforest : Forest arena root) {id limit root' : NodeId} {node : Node Form} (hnode : arena.get? id = some node)
    (hchain : arena.siblings limit node.kind.firstChild = some ids) (hroot : root root') : root' ∉ ids := by
  intro hmember
  rcases mem_siblings hchain root' hmember with hfirst | ⟨other, before, hbefore, hnext⟩
  · refine hforest.free root' hroot id ?_
    simp only [references, hnode, Option.map_some, Option.getD_some]
    exact mem_append_left _ (mem_append_right _ (Option.mem_toList.2 hfirst))
  · refine hforest.free root' hroot other ?_
    simp only [references, hbefore, Option.map_some, Option.getD_some]
    exact mem_append_right _ (Option.mem_toList.2 hnext)

/-- A new node refers to nodes that nothing refers to yet. -/
theorem alloc (hforest : Forest arena root) (hnodup : form.references.Nodup)
    (hfree : ∀ child ∈ form.references, child < arena.size ∧ ∀ other, child ∉ arena.references other)
    (hcounted : (∀ member ∈ ids, member < arena.size) ∧
      (∀ limit, ids.length ≤ limit → arena.siblings limit form.firstChild = some ids) ∧ ∀ count ∈ form.count?, ids.length = count) :
    Forest (arena.alloc form line).2 fun id => id = arena.size ∨ root id ∧ id ∉ form.references := by
  have hget := hforest.packed.get?_alloc form line
  have hreferences (id : NodeId) : (arena.alloc form line).2.references id =
      if id = arena.size then form.references else arena.references id := by
    unfold references
    rw [hget]
    split
    · simp
    · rfl
  have hchain {first : Option NodeId} {ids : List NodeId} {limit : Nat} (hless : ∀ member ∈ ids, member < arena.size)
      (hchain : arena.siblings limit first = some ids) : (arena.alloc form line).2.siblings limit first = some ids :=
    siblings_congr (fun id hid => by rw [hget, if_neg (Nat.ne_of_lt (hless id hid))]) hchain
  refine ⟨hforest.packed.alloc _ _, fun id node hnode => ?_, fun id node hnode => ?_, fun id => ?_, fun first second hne => ?_, ?_, ?_,
    fun id node hnode => ?_⟩
  · rw [hget] at hnode
    split at hnode
    · next hid =>
      obtain rfl := Option.some.inj hnode
      exact fun child hchild => hid ▸ (hfree child hchild).1
    · exact hforest.older id node hnode
  · rw [hget] at hnode
    split at hnode
    · obtain rfl := Option.some.inj hnode
      exact nofun
    · exact fun next hnext => ⟨(hforest.later id node hnode next hnext).1, Nat.lt_succ_of_lt (hforest.later id node hnode next hnext).2⟩
  · rw [hreferences]
    split
    · exact hnodup
    · exact hforest.once id
  · rw [hreferences, hreferences]
    split <;> split
    · next hfirst hsecond => exact absurd (hfirst.trans hsecond.symm) hne
    · exact fun child hchild => (hfree child hchild).2 second
    · exact fun child hother hchild => (hfree child hchild).2 first hother
    · exact hforest.apart first second hne
  · rintro id (rfl | ⟨hroot, hnot⟩) other <;> rw [hreferences] <;> split
    · exact fun hchild => Nat.lt_irrefl _ (hfree _ hchild).1
    · exact fun hchild => Nat.lt_irrefl _ (hforest.lt_size hchild)
    · exact hnot
    · exact hforest.free id hroot other
  · rintro id (rfl | ⟨hroot, -⟩)
    · exact ⟨_, by rw [hget, if_pos rfl], rfl⟩
    · obtain ⟨node, hnode, hnext⟩ := hforest.loose id hroot
      exact ⟨node, by rw [hget, if_neg (Nat.ne_of_lt (hforest.packed.lt_size hnode)), hnode], hnext⟩
  · rw [hget] at hnode
    split at hnode
    · next hid =>
      obtain rfl := Option.some.inj hnode
      exact ⟨ids, hid ▸ hcounted.1, fun limit hlimit => hchain hcounted.1 (hcounted.2.1 limit hlimit), hcounted.2.2⟩
    · obtain ⟨members, hless, hmembers, hcount⟩ := hforest.counted id node hnode
      have hsize := hforest.packed.lt_size hnode
      refine ⟨members, hless, fun limit hlimit => hchain (fun member hmember => ?_) (hmembers limit hlimit), hcount⟩
      exact Nat.lt_trans (hless member hmember) hsize

theorem link (hforest : Forest arena root) (hsorted : ids.Pairwise (· < ·)) (hroots : ∀ id ∈ ids, root id) :
    Forest (arena.chain ids) (fun id => root id ∧ id ∉ ids) ∧
      ∀ first ∈ ids.head?, ∀ other, first ∉ (arena.chain ids).references other := by
  have hnodup : ids.Nodup := hsorted.imp Nat.ne_of_lt
  have hget := get?_chain hnodup fun id hid => (hforest.loose id (hroots id hid)).elim fun _ hnode => hforest.packed.lt_size hnode.1
  -- Only links change, and the new ones lead to roots.
  have hkind {id : NodeId} {node : Node Form} (hnode : (arena.chain ids).get? id = some node) : ∃ old, arena.get? id = some old ∧
      node.kind = old.kind ∧ (node.next = old.next ∨ node.next = successor id ids) := by
    rw [hget] at hnode
    split at hnode
    · obtain ⟨old, hold, rfl⟩ := Option.map_eq_some_iff.1 hnode
      exact ⟨old, hold, rfl, .inr rfl⟩
    · exact ⟨node, hnode, rfl, .inl rfl⟩
  have hreferences (id : NodeId) : (arena.chain ids).references id = arena.references id ++ (successor id ids).toList := by
    unfold references
    rw [hget]
    split
    · next hid =>
      obtain ⟨node, hnode, hnext⟩ := hforest.loose id (hroots id hid)
      simp [hnode, hnext]
    · next hid =>
      cases hsuccessor : successor id ids with
      | none => simp
      | some next => exact absurd (mem_of_successor hsuccessor).1 hid
  have hunreferred {id other : NodeId} (hid : id ∈ ids) : id ∉ arena.references other := hforest.free id (hroots id hid) other
  have hnew {id next : NodeId} (hnext : next ∈ (successor id ids).toList) : successor id ids = some next ∧ next ∈ ids.tail :=
    ⟨Option.mem_toList.1 hnext, (mem_of_successor (Option.mem_toList.1 hnext)).2⟩
  refine ⟨⟨hforest.packed.chain ids, fun id node hnode => ?_, fun id node hnode => ?_, fun id => ?_, fun first second hne => ?_, ?_, ?_,
    fun id node hnode => ?_⟩, fun first hfirst other hmem => ?_⟩
  · obtain ⟨old, hold, hsame, -⟩ := hkind hnode
    exact hsame ▸ hforest.older id old hold
  · obtain ⟨old, hold, -, hnext | hnext⟩ := hkind hnode <;> rw [hnext, size_chain]
    · exact hforest.later id old hold
    · intro next hnext
      obtain ⟨later, hlater, -⟩ := hforest.loose next (hroots next (mem_of_mem_tail (mem_of_successor hnext).2))
      exact ⟨lt_of_successor hsorted hnext, hforest.packed.lt_size hlater⟩
  · rw [hreferences]
    refine nodup_append.2 ⟨hforest.once id, by cases successor id ids <;> simp, fun child hchild next hnext hsame => ?_⟩
    exact hunreferred (mem_of_mem_tail (hnew hnext).2) (hsame ▸ hchild)
  · rw [hreferences, hreferences]
    refine disjoint_append_left.2 ⟨disjoint_append_right.2 ⟨hforest.apart first second hne, ?_⟩,
      disjoint_append_right.2 ⟨?_, ?_⟩⟩
    · exact fun child hchild hnext => hunreferred (mem_of_mem_tail (hnew hnext).2) hchild
    · exact fun child hnext hchild => hunreferred (mem_of_mem_tail (hnew hnext).2) hchild
    · exact fun child hfirst hsecond => hne (successor_injective hnodup (hnew hfirst).1 (hnew hsecond).1)
  · rintro id ⟨hroot, hid⟩ other
    rw [hreferences]
    refine not_mem_append (hforest.free id hroot other) fun hnext => hid (mem_of_mem_tail (hnew hnext).2)
  · rintro id ⟨hroot, hid⟩
    rw [hget, if_neg hid]
    exact hforest.loose id hroot
  · obtain ⟨old, hold, hsame, -⟩ := hkind hnode
    obtain ⟨members, hless, hmembers, hcount⟩ := hforest.counted id old hold
    rw [hsame]
    refine ⟨members, hless, fun limit hlimit => siblings_congr (fun member hmember => ?_) (hmembers limit hlimit), hcount⟩
    exact get?_chain_of_notMem fun hid => hforest.ne_of_member hold (hmembers limit hlimit) (hroots member hid) hmember
  · rw [hreferences] at hmem
    rcases mem_append.1 hmem with hold | hnext
    · exact hunreferred (mem_of_mem_head? hfirst) hold
    · cases ids with
      | nil => cases hfirst
      | cons head rest =>
        obtain rfl := Option.some.inj hfirst
        exact (nodup_cons.1 hnodup).1 (hnew hnext).2

end Forest

/-- A node stands in the arena, and its list of children is chained. -/
structure Holds (arena : Arena Form) (tree : Tree) : Prop where
  node : ∃ next, arena.get? tree.id = some ⟨tree.form, tree.line, next⟩
  siblings : ∀ limit, tree.list.length ≤ limit → arena.siblings limit tree.form.firstChild = some (tree.list.map Tree.id)

theorem Holds.congr {arena arena' : Arena Form} {tree : Tree} (hholds : arena.Holds tree)
    (hroot : ∃ next, arena'.get? tree.id = some ⟨tree.form, tree.line, next⟩)
    (hlist : ∀ child ∈ tree.list, arena'.get? child.id = arena.get? child.id) : arena'.Holds tree := by
  refine ⟨hroot, fun limit hlimit => siblings_congr ?_ (hholds.siblings limit hlimit)⟩
  intro id hid
  obtain ⟨child, hchild, rfl⟩ := mem_map.1 hid
  exact hlist child hchild

/-- The trees that have been made and have no parent yet, in the order of their making. -/
structure Holding (trees : List Tree) (arena : Arena Form) : Prop where
  forest : arena.Forest fun id => id ∈ trees.map Tree.id
  stored : ∀ tree ∈ trees, tree.Each arena.Holds
  distinct : ((trees.flatMap Tree.nodes).map Tree.id).Nodup
  sorted : (trees.map Tree.id).Pairwise (· < ·)

namespace Holding

variable {arena : Arena Form} {trees held items : List Tree} {tree : Tree}

theorem empty : Holding [] Arena.empty := by
  have hnone (id : NodeId) : (Arena.empty : Arena Form).get? id = none := by simp [Arena.empty, get?]
  refine ⟨⟨packed_empty, ?_, ?_, ?_, ?_, ?_, ?_, ?_⟩, ?_, .nil, .nil⟩ <;> simp [hnone, references]

theorem sublist (hholding : Holding trees arena) (hitems : items.Sublist trees) : Holding items arena where
  forest := hholding.forest.mono fun _ hid => (hitems.map _).subset hid
  stored tree htree := hholding.stored tree (hitems.subset htree)
  distinct := hholding.distinct.sublist ((hitems.flatMap _).map _)
  sorted := hholding.sorted.sublist (hitems.map _)

theorem lt_size (hholding : Holding trees arena) (htree : tree ∈ trees) {node : Tree} (hnode : node ∈ tree.nodes) :
    node.id < arena.size := by
  obtain ⟨next, hget⟩ := (hholding.stored tree htree node hnode).node
  exact hholding.forest.packed.lt_size hget

/-- Members of the lists of nodes are no roots, so chaining roots leaves the trees as they are. -/
theorem stored_chain (hholding : Holding trees arena) (hitems : items.Sublist trees) :
    ∀ tree ∈ trees, tree.Each (arena.chain (items.map Tree.id)).Holds := by
  intro tree htree node hnode
  have hholds := hholding.stored tree htree node hnode
  obtain ⟨next, hget⟩ := hholds.node
  refine hholds.congr ?_ fun child hchild => get?_chain_of_notMem fun hid => ?_
  · have hsame := map_get?_chain arena (items.map Tree.id) node.id
    rw [hget] at hsame
    obtain ⟨⟨kind, line, next⟩, hlinked, heq⟩ := Option.map_eq_some_iff.1 hsame
    obtain ⟨rfl, rfl⟩ := Prod.mk.inj heq
    exact ⟨next, hlinked⟩
  · exact hholding.forest.ne_of_member hget (hholds.siblings _ (Nat.le_refl _)) ((hitems.map _).subset hid)
      (mem_map_of_mem hchild)

theorem stored_alloc (hpacked : arena.Packed) (hstored : tree.Each arena.Holds) (form : Form) (line : Nat) :
    tree.Each (arena.alloc form line).2.Holds := by
  have hold {node : Tree} (hnode : node ∈ tree.nodes) : (arena.alloc form line).2.get? node.id = arena.get? node.id := by
    obtain ⟨next, hget⟩ := (hstored node hnode).node
    rw [hpacked.get?_alloc, if_neg (Nat.ne_of_lt (hpacked.lt_size hget))]
  intro node hnode
  refine (hstored node hnode).congr ?_ fun child hchild => hold ?_
  · rw [hold hnode]
    exact (hstored node hnode).node
  · exact mem_nodes_child hnode (node.list_sublist_children.subset hchild)

/-- A new node takes the place of the trees that become its children. -/
theorem node (hholding : Holding (held ++ trees) arena) (hid : tree.id = arena.size) (hchildren : tree.children.Subperm trees)
    (hlist : tree.list.Sublist trees) :
    Holding (held ++ [tree]) ((arena.chain (tree.list.map Tree.id)).alloc tree.form tree.line).2 := by
  obtain ⟨kept, hkept, hsublist⟩ := hchildren
  have hless {id : NodeId} (hmem : id ∈ (held ++ trees).map Tree.id) : id < arena.size := by
    obtain ⟨root, hroot, rfl⟩ := mem_map.1 hmem
    exact hholding.lt_size hroot root.mem_nodes_self
  have hroots : (held.map Tree.id ++ trees.map Tree.id).Nodup := by
    rw [← map_append]
    exact hholding.sorted.imp Nat.ne_of_lt
  have hids : (tree.form.children ++ tree.list.map Tree.id).Perm (kept.map Tree.id) := by
    rw [tree.children_form]
    exact (hkept.map Tree.id).symm
  have hnodup := hids.nodup_iff.2 ((nodup_append.1 hroots).2.1.sublist (hsublist.map _))
  have htaken {id : NodeId} (hmem : id ∈ tree.form.children ++ tree.list.map Tree.id) : id ∈ trees.map Tree.id :=
    (hsublist.map _).subset (hids.subset hmem)
  have hroot {id : NodeId} (hmem : id ∈ trees.map Tree.id) : id ∈ (held ++ trees).map Tree.id := by
    rw [map_append]
    exact mem_append_right _ hmem
  have hmembers : tree.list.Sublist (held ++ trees) := hlist.trans (sublist_append_right _ _)
  obtain ⟨hlinked, hhead⟩ := hholding.forest.link (hholding.sorted.sublist (hmembers.map _)) fun id hid => (hmembers.map _).subset hid
  have hfirst : tree.form.firstChild = (tree.list.map Tree.id).head? := by rw [tree.firstChild_form, Tree.headId, head?_map]
  have hreferences : tree.form.references.Sublist (tree.form.children ++ tree.list.map Tree.id) := by
    refine (Sublist.refl _).append ?_
    rw [hfirst]
    cases tree.list.map Tree.id <;> simp
  have hchain : ∀ limit, (tree.list.map Tree.id).length ≤ limit →
      (arena.chain (tree.list.map Tree.id)).siblings limit tree.form.firstChild = some (tree.list.map Tree.id) := by
    intro limit hlimit
    rw [hfirst]
    refine siblings_chain (nodup_append.1 hnodup).2.1 (fun id hid => hless ((hmembers.map _).subset hid)) (fun id hid => ?_) hlimit
    exact hholding.forest.packed.isSome_get? (hless ((hmembers.map _).subset hid))
  have hkeeps {root : Tree} (hmem : root ∈ held ++ trees) :=
    stored_alloc hlinked.packed (hholding.stored_chain hmembers root hmem) tree.form tree.line
  have hsize : tree.id = (arena.chain (tree.list.map Tree.id)).size := by rw [size_chain, hid]
  refine ⟨(hlinked.alloc (hnodup.sublist hreferences) ?_ ⟨?_, hchain, ?_⟩).mono ?_, ?_, ?_, ?_⟩
  · intro child hchild
    rw [size_chain]
    refine ⟨hless (hroot (htaken (hreferences.subset hchild))), ?_⟩
    rcases mem_append.1 hchild with hchild | hchild
    · refine hlinked.free child ⟨hroot (htaken (mem_append_left _ hchild)), fun hmember => ?_⟩
      exact (nodup_append.1 hnodup).2.2 child hchild child hmember rfl
    · exact hhead child (hfirst ▸ Option.mem_toList.1 hchild)
  · intro member hmember
    rw [size_chain]
    exact hless ((hmembers.map _).subset hmember)
  · simpa using tree.count?_form
  · intro id hmem
    rw [map_append] at hmem
    rcases mem_append.1 hmem with hmem | hmem
    · have hnot {ids : List NodeId} (hsub : ids ⊆ tree.form.children ++ tree.list.map Tree.id) : id ∉ ids := fun hin =>
        (nodup_append.1 hroots).2.2 id hmem id (htaken (hsub hin)) rfl
      refine .inr ⟨⟨?_, hnot (subset_append_right _ _)⟩, hnot hreferences.subset⟩
      rw [map_append]
      exact mem_append_left _ hmem
    · rw [map_singleton, mem_singleton] at hmem
      exact .inl (hmem.trans hsize)
  · refine forall_mem_append.2 ⟨fun root hmem => hkeeps (mem_append_left _ hmem), forall_mem_singleton.2 ?_⟩
    refine each_iff.2 ⟨⟨⟨none, ?_⟩, fun limit hlimit => ?_⟩, fun child hchild => hkeeps ?_⟩
    · rw [hlinked.packed.get?_alloc, if_pos hsize]
    · refine siblings_congr (fun id hmember => ?_) (hchain limit (by rwa [length_map]))
      rw [hlinked.packed.get?_alloc, size_chain, if_neg (Nat.ne_of_lt (hless ((hmembers.map _).subset hmember)))]
    · exact mem_append_right _ (hsublist.subset (hkept.symm.subset hchild))
  · have hbelow : (held.flatMap nodes ++ tree.children.flatMap nodes).Subperm ((held ++ trees).flatMap nodes) := by
      rw [flatMap_append]
      exact ⟨_, (hkept.flatMap_right _).append_left _, (Sublist.refl _).append (hsublist.flatMap _)⟩
    obtain ⟨nodes, hperm, hnodes⟩ := hbelow
    rw [flatMap_append, flatMap_singleton, tree.nodes_eq, ((perm_middle.map Tree.id).nodup_iff), map_cons,
      nodup_cons]
    refine ⟨fun hmem => ?_, (hperm.map Tree.id).nodup_iff.1 (hholding.distinct.sublist (hnodes.map _))⟩
    obtain ⟨node, hnode, hsame⟩ := mem_map.1 hmem
    obtain ⟨root, hroot, hnode⟩ := mem_flatMap.1 (hnodes.subset (hperm.symm.subset hnode))
    exact Nat.ne_of_lt (hholding.lt_size hroot hnode) (hsame.trans hid)
  · rw [map_append]
    refine pairwise_append.2 ⟨hholding.sorted.sublist ((sublist_append_left _ _).map _), pairwise_singleton _ _, ?_⟩
    intro id hmem new hnew
    rw [mem_singleton.1 hnew, hid]
    exact hless (map_append ▸ mem_append_left _ hmem)

end Holding

end Arena
end NanScript
