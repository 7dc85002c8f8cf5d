/-!
# Paged arenas

Nodes are numbered in the order in which they are made and kept in pages of equal size, so that a node never moves. Each
node has a line and a link to a sibling; a list of children is a chain of siblings.
-/

namespace NanScript

abbrev NodeId := Nat

structure Arena.Node (κ : Type) where
  kind : κ
  line : Nat
  next : Option NodeId
  deriving Repr

structure Arena (κ : Type) where
  pages : Array (Array (Arena.Node κ))
  size : Nat

namespace Arena

variable {κ : Type}

def pageSize : Nat := 2048

def empty : Arena κ := ⟨#[], 0⟩

instance : Inhabited (Arena κ) := ⟨empty⟩

def isEmpty (arena : Arena κ) : Bool := arena.size == 0

def pageCount (arena : Arena κ) : Nat := arena.pages.size

def get? (arena : Arena κ) (id : NodeId) : Option (Node κ) := do
  let page ← arena.pages[id / pageSize]?
  page[id % pageSize]?

def lastPageFull (arena : Arena κ) : Bool :=
  match arena.pages.back? with
  | some page => page.size == pageSize
  | none => true

/-- Make a node with no sibling. The result is its number. -/
def alloc (arena : Arena κ) (kind : κ) (line : Nat) : NodeId × Arena κ :=
  let full := arena.lastPageFull
  let pages := if full then arena.pages.push #[] else arena.pages
  (arena.size,
    { pages := pages.modify (pages.size - 1) (·.push ⟨kind, line, none⟩), size := arena.size + 1 })

def modify (arena : Arena κ) (id : NodeId) (change : Node κ → Node κ) : Arena κ :=
  { arena with pages := arena.pages.modify (id / pageSize) fun page => page.modify (id % pageSize) change }

def setLine (arena : Arena κ) (id : NodeId) (line : Nat) : Arena κ := arena.modify id ({ · with line })

def setNext (arena : Arena κ) (id : NodeId) (next : Option NodeId) : Arena κ := arena.modify id ({ · with next })

def hasAll (arena : Arena κ) (ids : List NodeId) : Bool := ids.all (· < arena.size)

/-- Chain nodes into a list of siblings. A number that is no node ends the work; the links in front of it stay. -/
def chain (arena : Arena κ) : List NodeId → Arena κ
  | [] => arena
  | [last] => arena.setNext last none
  | first :: second :: rest =>
    if first < arena.size then (arena.setNext first (some second)).chain (second :: rest) else arena

/-- Chain nodes. The result is the first of them; there is no result if a number is no node. -/
def link (arena : Arena κ) (ids : List NodeId) : Option (Option NodeId) × Arena κ :=
  (if arena.hasAll ids then some ids.head? else none, arena.chain ids)

/-- The chain of siblings from `first` on, its first `limit` members at most. There is none if a link leaves the
arena. -/
def siblings (arena : Arena κ) : Nat → Option NodeId → Option (List NodeId)
  | 0, _ => some []
  | _, none => some []
  | limit + 1, some id => do
    let node ← arena.get? id
    let rest ← arena.siblings limit node.next
    pure (id :: rest)

/-! ### Operations -/

inductive Operation (κ : Type) where
  | alloc (kind : κ) (line : Nat)
  | setLine (id : NodeId) (line : Nat)
  | setNext (id : NodeId) (next : Option NodeId)
  | link (ids : List NodeId)

inductive Answer where
  | made (id : NodeId)
  | changed
  | linked (head : Option NodeId)
  | outOfRange
  deriving DecidableEq, Repr

def perform (arena : Arena κ) : Operation κ → Answer × Arena κ
  | .alloc kind line =>
    let (id, arena) := arena.alloc kind line
    (.made id, arena)
  | .setLine id line => if id < arena.size then (.changed, arena.setLine id line) else (.outOfRange, arena)
  | .setNext id next => if id < arena.size then (.changed, arena.setNext id next) else (.outOfRange, arena)
  | .link ids =>
    let (head, arena) := arena.link ids
    (head.elim .outOfRange .linked, arena)

def summary (arena : Arena κ) (names : String) : String :=
  s!"AstArena \x7b nodes: {arena.size}, pages: {arena.pageCount}, interner: {names} \x7d"

@[simp] theorem size_empty : (empty : Arena κ).size = 0 := rfl

@[simp] theorem alloc_fst (arena : Arena κ) (kind : κ) (line : Nat) : (arena.alloc kind line).1 = arena.size := rfl

@[simp] theorem link_snd (arena : Arena κ) (ids : List NodeId) : (arena.link ids).2 = arena.chain ids := rfl

@[simp] theorem size_alloc (arena : Arena κ) (kind : κ) (line : Nat) :
    (arena.alloc kind line).2.size = arena.size + 1 := rfl

@[simp] theorem size_modify (arena : Arena κ) (id : NodeId) (change : Node κ → Node κ) :
    (arena.modify id change).size = arena.size := rfl

@[simp] theorem size_setNext (arena : Arena κ) (id : NodeId) (next : Option NodeId) :
    (arena.setNext id next).size = arena.size := rfl

@[simp] theorem size_chain (arena : Arena κ) (ids : List NodeId) : (arena.chain ids).size = arena.size := by
  fun_induction chain arena ids <;> simp_all

end Arena

end NanScript
