import NanScript.Heap

/-!
# Collection

A collection keeps the blocks that can be reached from some words, the roots. A word leads to a block if it is the
address of the block, plain or in the box of a string, an object or a list. Every word of a reached block counts, as
nobody knows which of them are addresses: some blocks may be kept for nothing, but no block in use is lost.

Marking sets the mark of each block when it is first reached, and looks into it later. Every block is marked once, so the
blocks that are not marked and those that wait to be looked into get fewer with every step. Sweeping frees the blocks
without a mark and clears the marks of the others.
-/

namespace NanScript

namespace Block

def mark (block : Block) : Block := { block with marked := true }

def unmark (block : Block) : Block := { block with marked := false }

end Block

namespace Heap

def candidate (word : UInt64) : Nat := (Value.heapAddress? ⟨word⟩).getD word.toNat

def find? (heap : Heap) (word : UInt64) : Option Nat :=
  let address := candidate word
  if address = 0 || address % 8 != 0 || !heap.filter.mayContain address then none else heap.index[address]?

/-! ### Marking -/

/-- A heap with some marks, and which of the marked blocks wait to be looked into. -/
structure Marking where
  heap : Heap
  pending : List Nat

namespace Marking

def remaining (marking : Marking) : Nat := marking.heap.blocks.countP (!·.marked) + marking.pending.length

def note (marking : Marking) (word : UInt64) : Marking :=
  match marking.heap.find? word with
  | some position =>
    if hinside : position < marking.heap.blocks.size then
      if marking.heap.blocks[position].marked then marking
      else
        { heap := { marking.heap with blocks := marking.heap.blocks.set position marking.heap.blocks[position].mark }
          pending := position :: marking.pending }
    else marking
  | none => marking

def noteAll (marking : Marking) (words : List UInt64) : Marking := words.foldl note marking

theorem remaining_note (marking : Marking) (word : UInt64) : (marking.note word).remaining = marking.remaining := by
  unfold note
  split
  · split
    · next position _ hinside =>
      split
      · rfl
      · next hunmarked =>
        have hcount : 0 < marking.heap.blocks.countP (!·.marked) :=
          Array.countP_pos_iff.2 ⟨_, Array.getElem_mem hinside, by simp [hunmarked]⟩
        simp only [remaining, Array.countP_set, hunmarked, Block.mark, List.length_cons]
        simp
        omega
    · rfl
  · rfl

theorem remaining_noteAll (marking : Marking) (words : List UInt64) :
    (marking.noteAll words).remaining = marking.remaining := by
  induction words generalizing marking with
  | nil => rfl
  | cons word rest ih => exact (ih _).trans (remaining_note marking word)

def drain (marking : Marking) : Heap :=
  match _hwaiting : marking.pending with
  | [] => marking.heap
  | position :: rest =>
    drain (noteAll { marking with pending := rest } (marking.heap.blocks.getD position default).words.toList)
termination_by marking.remaining
decreasing_by
  rw [remaining_noteAll]
  simp [remaining, _hwaiting]

end Marking

def mark (heap : Heap) (roots : List UInt64) : Heap := (Marking.mk heap []).noteAll roots |>.drain

/-! ### Sweeping -/

structure Swept where
  blocks : Nat
  bytes : Nat
  deriving DecidableEq, Repr, Inhabited

def indexOf (blocks : List Block) : Std.HashMap Nat Nat :=
  (blocks.zipIdx).foldl (fun index (block, position) => index.insert block.address position) {}

def sweep (heap : Heap) : Swept × Heap :=
  let (kept, freed) := heap.blocks.toList.partition (·.marked)
  let blocks := kept.map Block.unmark
  let bytes := freed.foldl (fun total block => total + block.size) 0
  ({ blocks := freed.length, bytes := bytes.toNat },
    { blocks := blocks.toArray
      index := indexOf blocks
      bytes := heap.bytes - bytes
      filter := Filter.ofList (blocks.map Block.address)
      top := heap.top
      log := .collected :: heap.log })

def collect (heap : Heap) (roots : List UInt64) : Swept × Heap := (heap.mark roots).sweep

end Heap

end NanScript
