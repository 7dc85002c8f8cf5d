import Mathlib.Algebra.GroupWithZero.Nat
import Mathlib.Data.List.Nodup
import Mathlib.Data.List.Perm.Subperm
import Mathlib.Tactic.ByContra
import NanScript.Heap.Allocator
import NanScript.Heap.Collection

/-!
# A heap in order

The list of blocks, the index, the filter and the count of bytes say the same thing in four ways. `Heap.Sound` is that they
agree, and that no mark is set. Allocation and writing keep it; where the allocator puts a block is left open, as long as
nothing else is there.
-/

namespace NanScript

open Block List

namespace Block

/-- A block at an aligned address below the ceiling, without a mark. -/
structure Placed (block : Block) : Prop where
  nonzero : block.address ≠ 0
  aligned : block.address % 8 = 0
  bound : block.address + block.size.toNat ≤ Heap.ceiling
  unmarked : block.marked = false
  /-- No word behind the last one is kept. -/
  words : block.words.size ≤ block.wordCount

section

variable {block : Block} {position : Nat} {word : UInt64}

@[simp] theorem address_write : (block.write position word).address = block.address := by
  unfold write
  split <;> rfl

@[simp] theorem size_write : (block.write position word).size = block.size := by
  unfold write
  split <;> rfl

@[simp] theorem marked_write : (block.write position word).marked = block.marked := by
  unfold write
  split <;> rfl

theorem Placed.write (hplaced : block.Placed) : (block.write position word).Placed := by
  refine ⟨?_, ?_, ?_, ?_, ?_⟩
  · rw [address_write]
    exact hplaced.nonzero
  · rw [address_write]
    exact hplaced.aligned
  · rw [address_write, size_write]
    exact hplaced.bound
  · rw [marked_write]
    exact hplaced.unmarked
  · have hwords := hplaced.words
    unfold wordCount at hwords ⊢
    rw [size_write]
    unfold Block.write wordCount
    split
    · simp only [Array.size_setIfInBounds, Array.size_append, Array.size_replicate]
      omega
    · exact hwords

theorem Placed.address_lt (hplaced : block.Placed) : block.address < Heap.addressBound :=
  Nat.lt_of_le_of_lt (Nat.le_trans (Nat.le_add_right ..) hplaced.bound) (by decide)

end

end Block

namespace Heap

/-- Index, filter and count agree with the list of blocks. -/
structure Sound (heap : Heap) : Prop where
  /-- The index leads from the address of each block to its position, and from nothing else. -/
  index : ∀ address position,
    heap.index[address]? = some position ↔ ∃ block : Block, heap.blocks[position]? = some block ∧ block.address = address
  filter : ∀ block ∈ heap.blocks, heap.filter.mayContain block.address = true
  bytes : heap.bytes.toNat = (heap.blocks.toList.map (·.size.toNat)).sum
  apart : heap.blocks.toList.Pairwise Apart
  placed : ∀ block ∈ heap.blocks, block.Placed
  bounded : heap.Bounded

/-! ### Room -/

variable {blocks : List Block}

/-- Blocks that are apart have room below the ceiling. -/
theorem sum_sizes_le (hapart : blocks.Pairwise Apart) (hplaced : ∀ block ∈ blocks, block.Placed) :
    (blocks.map (·.size.toNat)).sum ≤ ceiling := by
  -- All bytes of all blocks are different numbers below the ceiling.
  let bytes (block : Block) : List Nat := range' block.address block.size.toNat
  have hlength : (blocks.flatMap bytes).length = (blocks.map (·.size.toNat)).sum := by
    simp [bytes, length_flatMap]
  have hnodup : (blocks.flatMap bytes).Nodup := by
    refine nodup_flatMap.2 ⟨fun block _ => nodup_range', hapart.imp fun {first second} hapart => ?_⟩
    intro byte hfirst hsecond
    simp only [bytes, mem_range'_1] at hfirst hsecond
    have hapart := hapart.2
    omega
  have hsubset : blocks.flatMap bytes ⊆ range ceiling := by
    intro byte hbyte
    obtain ⟨block, hblock, hbyte⟩ := mem_flatMap.1 hbyte
    have hbound := (hplaced block hblock).bound
    simp only [bytes, mem_range'_1] at hbyte
    rw [mem_range]
    omega
  have hle := (subperm_of_subset hnodup hsubset).length_le
  rwa [hlength, length_range] at hle

/-! ### Operations -/

theorem sound_empty : Sound {} where
  index address position := by simp
  filter _ hblock := absurd hblock (Array.not_mem_empty _)
  bytes := rfl
  apart := .nil
  placed _ hblock := absurd hblock (Array.not_mem_empty _)
  bounded _ hblock := absurd hblock (Array.not_mem_empty _)

variable {heap : Heap} {size : UInt64} {address : Nat}

/-- A block may be put wherever no other block is. -/
theorem Sound.insert (hsound : heap.Sound) (hfresh : heap.Fresh address size) : (heap.insert address size).Sound := by
  have hplaced : ∀ block ∈ heap.blocks.push { address, size }, block.Placed := by
    intro block hblock
    rcases Array.mem_push.1 hblock with hblock | rfl
    · exact hsound.placed block hblock
    · exact ⟨hfresh.nonzero, hfresh.aligned, hfresh.bound, rfl, Nat.zero_le _⟩
  have hapart : (heap.blocks.push { address, size }).toList.Pairwise Apart := by
    rw [Array.toList_push, pairwise_append]
    refine ⟨hsound.apart, pairwise_singleton _ _, fun block hblock new hnew => ?_⟩
    rw [mem_singleton.1 hnew]
    exact hfresh.apart block (Array.mem_toList_iff.1 hblock)
  refine ⟨fun other position => ?_, ?_, ?_, hapart, hplaced, ?_⟩
  · show (heap.index.insert address heap.blocks.size)[other]? = some position ↔
      ∃ block : Block, (heap.blocks.push { address, size })[position]? = some block ∧ block.address = other
    have hnew : ∀ block : Block, heap.blocks[position]? = some block → block.address ≠ address := fun block hblock =>
      (hfresh.apart block (Array.mem_of_getElem? hblock)).1
    have hlast : heap.blocks[heap.blocks.size]? = none := Array.getElem?_eq_none (Nat.le_refl _)
    rw [Std.HashMap.getElem?_insert, Array.getElem?_push]
    by_cases hsame : address = other
    · subst hsame
      simp only [beq_self_eq_true, if_true, Option.some.injEq]
      constructor
      · rintro rfl
        exact ⟨_, if_pos rfl, rfl⟩
      · rintro ⟨block, hblock, haddress⟩
        by_contra hposition
        rw [if_neg (Ne.symm hposition)] at hblock
        exact hnew block hblock haddress
    · rw [if_neg (by simpa using hsame), hsound.index]
      by_cases hposition : position = heap.blocks.size
      · subst hposition
        simp only [hlast, if_true, Option.some.injEq, reduceCtorEq, false_and, exists_false, false_iff]
        rintro ⟨block, rfl, haddress⟩
        exact hsame haddress
      · rw [if_neg hposition]
  · intro block hblock
    show (heap.filter.insert address).mayContain block.address = true
    rcases Array.mem_push.1 hblock with hblock | rfl
    · rw [Filter.mayContain_insert, hsound.filter block hblock, Bool.true_or]
    · exact Filter.mayContain_insert_self _ _
  · have hroom := sum_sizes_le hapart fun block hblock => hplaced block (Array.mem_toList_iff.1 hblock)
    show (heap.bytes + size).toNat = ((heap.blocks.push { address, size }).toList.map (·.size.toNat)).sum
    rw [Array.toList_push, map_append, sum_append] at hroom ⊢
    have hsum : heap.bytes.toNat + size.toNat ≤ ceiling := by
      rw [hsound.bytes]
      simpa using hroom
    rw [UInt64.toNat_add, Nat.mod_eq_of_lt (Nat.lt_of_le_of_lt hsum (by decide)), hsound.bytes]
    simp
  · intro block hblock
    show _ ≤ max heap.top (address + size.toNat)
    rcases Array.mem_push.1 hblock with hblock | rfl
    · exact Nat.le_trans (hsound.bounded block hblock) (Nat.le_max_left _ _)
    · exact Nat.le_max_right _ _

theorem Sound.refuse (hsound : heap.Sound) (size : UInt64) : (heap.refuse size).Sound :=
  ⟨hsound.index, hsound.filter, hsound.bytes, hsound.apart, hsound.placed, hsound.bounded⟩

variable {position : Nat} {word : UInt64}

theorem map_modify_write {α : Type} {extent : Block → α}
    (hextent : ∀ block : Block, extent (block.write position word) = extent block) (blocks : List Block) (place : Nat) :
    (blocks.modify place (·.write position word)).map extent = blocks.map extent := by
  induction blocks generalizing place with
  | nil => simp
  | cons block rest ih => cases place <;> simp [hextent, ih]

theorem pairwise_apart_iff : blocks.Pairwise Apart ↔
    (blocks.map fun block => (block.address, block.size)).Pairwise fun first second =>
      first.1 ≠ second.1 ∧ (first.1 + first.2.toNat ≤ second.1 ∨ second.1 + second.2.toNat ≤ first.1) := by
  rw [pairwise_map]
  exact Iff.rfl

theorem mem_modify_write {blocks : Array Block} {block : Block} {place : Nat}
    (hblock : block ∈ blocks.modify place (·.write position word)) :
    ∃ old ∈ blocks, block = old ∨ block = old.write position word := by
  obtain ⟨other, hother⟩ := Array.mem_iff_getElem?.1 hblock
  rw [Array.getElem?_modify] at hother
  split at hother
  · obtain ⟨old, hold, rfl⟩ := Option.map_eq_some_iff.1 hother
    exact ⟨old, Array.mem_of_getElem? hold, .inr rfl⟩
  · exact ⟨block, Array.mem_of_getElem? hother, .inl rfl⟩

theorem Sound.write (hsound : heap.Sound) (address position : Nat) (word : UInt64) :
    (heap.write address position word).Sound := by
  unfold Heap.write
  split
  · next place hplace =>
    refine ⟨fun other spot => ?_, ?_, ?_, ?_, ?_, ?_⟩
    · show heap.index[other]? = some spot ↔
        ∃ block : Block, (heap.blocks.modify place (·.write position word))[spot]? = some block ∧ block.address = other
      rw [hsound.index, Array.getElem?_modify]
      split <;> simp
    · intro block hblock
      obtain ⟨old, hold, rfl | rfl⟩ := mem_modify_write hblock
      · exact hsound.filter block hold
      · rw [address_write]
        exact hsound.filter old hold
    · show heap.bytes.toNat = ((heap.blocks.modify place (·.write position word)).toList.map (·.size.toNat)).sum
      rw [Array.toList_modify, map_modify_write (fun block => by rw [size_write])]
      exact hsound.bytes
    · show (heap.blocks.modify place (·.write position word)).toList.Pairwise Apart
      rw [Array.toList_modify, pairwise_apart_iff, map_modify_write (fun block => by rw [address_write, size_write]),
        ← pairwise_apart_iff]
      exact hsound.apart
    · intro block hblock
      obtain ⟨old, hold, rfl | rfl⟩ := mem_modify_write hblock
      · exact hsound.placed block hold
      · exact (hsound.placed old hold).write
    · intro block hblock
      obtain ⟨old, hold, rfl | rfl⟩ := mem_modify_write hblock
      · exact hsound.bounded block hold
      · rw [address_write, size_write]
        exact hsound.bounded old hold
  · exact hsound

end Heap

end NanScript
