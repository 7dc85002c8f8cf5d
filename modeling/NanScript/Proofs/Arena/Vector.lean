import NanScript.Proofs.Arena

/-!
# An arena is a growable vector of nodes

Whatever is done to an arena, it holds the nodes that a plain list holds to which the same is done. A chain of siblings is read as
it was made until one of its own members is changed.
-/

namespace NanScript.Arena

open List

variable {κ : Type} {arena : Arena κ} {nodes : List (Node κ)} {id : NodeId}

def after (arena : Arena κ) (operation : Operation κ) : Arena κ := (arena.perform operation).2

def run (operations : List (Operation κ)) : Arena κ := operations.foldl after empty

namespace Operation

def isAlloc : Operation κ → Bool
  | alloc .. => true
  | _ => false

/-- The nodes that are there before and may be others after. -/
def changed : Operation κ → List NodeId
  | alloc .. => []
  | setLine id _ | setNext id _ => [id]
  | link ids => ids

/-- What an operation answers where there are as many nodes as `count`. -/
def answer (count : Nat) : Operation κ → Answer
  | alloc .. => .made count
  | setLine id _ | setNext id _ => if id < count then .changed else .outOfRange
  | link ids => if ∀ id ∈ ids, id < count then .linked ids.head? else .outOfRange

/-- Each number with the one behind it. -/
def links : List NodeId → List (NodeId × Option NodeId)
  | [] => []
  | first :: rest => (first, rest.head?) :: links rest

def setLink (nodes : List (Node κ)) (link : NodeId × Option NodeId) : List (Node κ) :=
  nodes.modify link.1 ({ · with next := link.2 })

/-- The operation on a list, where numbers are positions. Links are set one after another, up to a number that is no node. -/
def onList (nodes : List (Node κ)) : Operation κ → List (Node κ)
  | alloc kind line => nodes ++ [⟨kind, line, none⟩]
  | setLine id line => nodes.modify id ({ · with line })
  | setNext id next => setLink nodes (id, next)
  | link ids => ((links ids).takeWhile (·.1 < nodes.length)).foldl setLink nodes

end Operation

/-! ### Nodes -/

/-- An arena that holds the nodes of a list. -/
structure Reads (arena : Arena κ) (nodes : List (Node κ)) : Prop where
  packed : arena.Packed
  size : arena.size = nodes.length
  get? : ∀ id, arena.get? id = nodes[id]?

theorem reads_empty : (empty : Arena κ).Reads [] := ⟨packed_empty, rfl, fun _ => rfl⟩

section

variable (hreads : arena.Reads nodes)

include hreads

theorem Reads.alloc (kind : κ) (line : Nat) : (arena.alloc kind line).2.Reads (nodes ++ [⟨kind, line, none⟩]) := by
  refine ⟨hreads.packed.alloc kind line, by simp [hreads.size], fun id => ?_⟩
  rw [hreads.packed.get?_alloc, hreads.size, hreads.get?]
  rcases Nat.lt_trichotomy id nodes.length with hless | rfl | hmore
  · rw [if_neg (Nat.ne_of_lt hless), getElem?_append_left hless]
  · rw [if_pos rfl, getElem?_concat_length]
  · rw [if_neg (Nat.ne_of_gt hmore), getElem?_eq_none (Nat.le_of_lt hmore), getElem?_eq_none]
    simpa using Nat.succ_le_of_lt hmore

theorem Reads.modify (id : NodeId) (change : Node κ → Node κ) :
    (arena.modify id change).Reads (nodes.modify id change) := by
  refine ⟨hreads.packed.modify id change, by simp [hreads.size], fun other => ?_⟩
  rw [get?_modify, hreads.get?, getElem?_modify]
  by_cases hsame : other = id
  · simp [hsame]
  · simp [hsame, Ne.symm hsame]

theorem Reads.setNext (id : NodeId) (next : Option NodeId) :
    (arena.setNext id next).Reads (Operation.setLink nodes (id, next)) := hreads.modify id _

theorem Reads.chain (ids : List NodeId) : (arena.chain ids).Reads (Operation.onList nodes (.link ids)) := by
  have hsize := hreads.size
  unfold Operation.onList
  fun_induction Arena.chain arena ids generalizing nodes with
  | case1 => exact hreads
  | case2 arena last =>
    have hset := hreads.setNext last none
    by_cases hlast : last < nodes.length
    · simpa [Operation.links, hlast] using hset
    · rw [Operation.setLink, modify_eq_self (Nat.le_of_not_lt hlast)] at hset
      simpa [Operation.links, hlast] using hset
  | case3 arena first second rest hfirst ih =>
    have hset := hreads.setNext first (some second)
    have hrest := ih hset hset.size
    rw [← hset.size, size_setNext, hsize] at hrest
    simpa [Operation.links, hsize ▸ hfirst] using hrest
  | case4 arena first second rest hfirst => simpa [Operation.links, hsize ▸ hfirst] using hreads

theorem Reads.after (operation : Operation κ) : (arena.after operation).Reads (operation.onList nodes) := by
  -- An operation on a number that is no node changes neither side.
  have hmodify (id : NodeId) (change : Node κ → Node κ) (answer : Answer) :
      (if id < arena.size then (answer, arena.modify id change) else (.outOfRange, arena)).2.Reads (nodes.modify id change) := by
    split
    · exact hreads.modify id change
    · next hid => rwa [modify_eq_self (hreads.size ▸ Nat.le_of_not_lt hid)]
  cases operation with
  | alloc kind line => exact hreads.alloc kind line
  | setLine id line => exact hmodify id _ _
  | setNext id next => exact hmodify id _ _
  | link ids => exact hreads.chain ids

theorem Reads.foldl (operations : List (Operation κ)) :
    (operations.foldl Arena.after arena).Reads (operations.foldl Operation.onList nodes) := by
  induction operations generalizing arena nodes with
  | nil => exact hreads
  | cons operation rest ih => exact ih (hreads.after operation)

end

theorem perform_fst (arena : Arena κ) (operation : Operation κ) : (arena.perform operation).1 = operation.answer arena.size := by
  cases operation with
  | alloc kind line => rfl
  | setLine id line | setNext id next =>
    simp only [perform, Operation.answer]
    split <;> rfl
  | link ids =>
    simp only [perform, link, hasAll, Operation.answer, all_eq_true, decide_eq_true_eq]
    split <;> rfl

theorem size_after (arena : Arena κ) (operation : Operation κ) :
    (arena.after operation).size = arena.size + if operation.isAlloc then 1 else 0 := by
  cases operation with
  | alloc kind line => rfl
  | setLine id line | setNext id next =>
    simp only [after, perform, Operation.isAlloc]
    split <;> rfl
  | link ids => exact size_chain arena ids

theorem size_foldl_after (arena : Arena κ) (operations : List (Operation κ)) :
    (operations.foldl after arena).size = arena.size + operations.countP Operation.isAlloc := by
  induction operations generalizing arena with
  | nil => rfl
  | cons operation rest ih =>
    rw [foldl_cons, ih, size_after, countP_cons]
    omega

/-! ### Nodes that stay -/

theorem Packed.get?_after (hpacked : arena.Packed) {operation : Operation κ} (hid : id < arena.size)
    (hsame : id ∉ operation.changed) : (arena.after operation).get? id = arena.get? id := by
  have hmodify {target : NodeId} (hne : id ≠ target) (change : Node κ → Node κ) (answer : Answer) :
      (if target < arena.size then (answer, arena.modify target change) else (.outOfRange, arena)).2.get? id = arena.get? id := by
    split
    · exact (get?_modify arena target change id).trans (if_neg hne)
    · rfl
  cases operation with
  | alloc kind line => exact (hpacked.get?_alloc kind line id).trans (if_neg (Nat.ne_of_lt hid))
  | setLine target line => exact hmodify (ne_of_not_mem_cons hsame) _ _
  | setNext target next => exact hmodify (ne_of_not_mem_cons hsame) _ _
  | link ids => exact get?_chain_of_notMem hsame

theorem Reads.get?_foldl (hreads : arena.Reads nodes) {operations : List (Operation κ)} (hid : id < arena.size)
    (hsame : ∀ operation ∈ operations, id ∉ operation.changed) :
    (operations.foldl Arena.after arena).get? id = arena.get? id := by
  induction operations generalizing arena nodes with
  | nil => rfl
  | cons operation rest ih =>
    obtain ⟨hfirst, hrest⟩ := forall_mem_cons.1 hsame
    have hsize : id < (arena.after operation).size := size_after arena operation ▸ Nat.lt_add_right _ hid
    exact (ih (hreads.after operation) hsize hrest).trans (hreads.packed.get?_after hid hfirst)

/-- An arena holds the nodes that a list holds after the same operations, so the first number that is no node is the count of those
made; a new node is given that number, and a page is full before the next. An operation fails exactly if it is on a number that is
no node, and leaves the nodes alone that it is not on. To chain distinct nodes gives the first of them and sets their links to one
another, and from then on the chain is read from its first node, until there is an operation on one of them. -/
theorem arena_is_growable_vector (operations : List (Operation κ)) :
    (∀ id, (run operations).get? id = (operations.foldl Operation.onList [])[id]?) ∧
    (run operations).size = (operations.foldl Operation.onList []).length ∧
    (run operations).size = operations.countP Operation.isAlloc ∧
    (∀ operation, ((run operations).perform operation).1 = operation.answer (operations.countP Operation.isAlloc)) ∧
    (∀ kind line, ((run operations).alloc kind line).1 = operations.countP Operation.isAlloc ∧
      ((run operations).alloc kind line).2.get? (operations.countP Operation.isAlloc) = some ⟨kind, line, none⟩) ∧
    (run operations).pageCount = ((run operations).size + 2048 - 1) / 2048 ∧
    (∀ operation, ∀ id < (run operations).size, id ∉ operation.changed →
      ((run operations).perform operation).2.get? id = (run operations).get? id) ∧
    ∀ ids : List NodeId, ids.Nodup → (∀ id ∈ ids, id < (run operations).size) →
      ((run operations).link ids).1 = some ids.head? ∧
      (∀ id, ((run operations).link ids).2.get? id = if id ∈ ids then
        ((run operations).get? id).map ({ · with next := successor id ids }) else (run operations).get? id) ∧
      ∀ later : List (Operation κ), (∀ operation ∈ later, ∀ id ∈ ids, id ∉ operation.changed) →
        ∀ limit, ids.length ≤ limit →
          (later.foldl after ((run operations).link ids).2).siblings limit ids.head? = some ids := by
  have hreads : (run operations).Reads (operations.foldl Operation.onList []) := reads_empty.foldl operations
  have hcount : (run operations).size = operations.countP Operation.isAlloc :=
    (size_foldl_after empty operations).trans (Nat.zero_add _)
  refine ⟨hreads.get?, hreads.size, hcount, fun operation => hcount ▸ perform_fst _ operation, fun kind line => ⟨hcount, ?_⟩,
    hreads.packed.count, fun operation id hid hsame => hreads.packed.get?_after hid hsame,
    fun ids hnodup hsize => ⟨if_pos ?_, get?_chain hnodup hsize, fun later hlater limit hlimit => ?_⟩⟩
  · rw [hreads.packed.get?_alloc, if_pos hcount.symm]
  · simpa [hasAll] using hsize
  · have hsome (id : NodeId) (hid : id ∈ ids) := hreads.packed.isSome_get? (hsize id hid)
    refine siblings_congr (fun id hid => ?_) (siblings_chain hnodup hsize hsome hlimit)
    refine (hreads.chain ids).get?_foldl ?_ fun operation hoperation => hlater operation hoperation id hid
    rw [size_chain]
    exact hsize id hid

end NanScript.Arena
