import Mathlib.Data.List.Pairwise
import NanScript.Machine
import NanScript.Proofs.Heap.Collection
import NanScript.Proofs.Value

/-!
# What is in the blocks

The words of blocks as allocation, writing and collection leave them. A write changes one word of one block. A block that
the roots reach survives every collection with its words, so whatever an operation on the machine does to make room, it
finds the reached blocks as they were (`Heap.Survives`).
-/

namespace NanScript

open Heap

namespace Block

@[simp] theorem wordCount_write (block : Block) (position : Nat) (word : UInt64) :
    (block.write position word).wordCount = block.wordCount := by
  rw [wordCount, wordCount, size_write]

variable {block : Block} {position : Nat}

/-- A write inside the block changes the word at its position and no other. -/
theorem read_write (hposition : position < block.wordCount) (word : UInt64) (other : Nat) :
    (block.write position word).read other = if other = position then word else block.read other := by
  unfold write read
  rw [if_pos hposition, Array.getD_eq_getD_getElem?, Array.getD_eq_getD_getElem?]
  simp only
  by_cases hother : other = position
  · have hsize : other < (block.words ++ Array.replicate (position + 1 - block.words.size) 0).size := by
      rw [Array.size_append, Array.size_replicate]
      omega
    rw [hother] at hsize ⊢
    rw [Array.getElem?_setIfInBounds_self_of_lt hsize, if_pos rfl]
    rfl
  · rw [Array.getElem?_setIfInBounds_ne (Ne.symm hother), if_neg hother, Array.getElem?_append, Array.getElem?_replicate]
    by_cases hinside : other < block.words.size
    · rw [if_pos hinside]
    · rw [if_neg hinside, Array.getElem?_eq_none (by omega)]
      split <;> rfl

theorem read_write_self (hposition : position < block.wordCount) (word : UInt64) :
    (block.write position word).read position = word := by
  rw [read_write hposition, if_pos rfl]

theorem read_write_of_ne {other : Nat} (hposition : position < block.wordCount) (word : UInt64)
    (hother : other ≠ position) : (block.write position word).read other = block.read other := by
  rw [read_write hposition, if_neg hother]

/-- A write outside the block changes nothing. -/
theorem read_write_or (block : Block) (position : Nat) (word : UInt64) (other : Nat) :
    (block.write position word).read other = word ∧ other = position ∨
      (block.write position word).read other = block.read other := by
  by_cases hposition : position < block.wordCount
  · rw [read_write hposition]
    by_cases hother : other = position
    · exact .inl ⟨if_pos hother, hother⟩
    · exact .inr (if_neg hother)
  · rw [write, if_neg hposition]
    exact .inr rfl

@[simp] theorem read_mk (address : Nat) (size : UInt64) (position : Nat) : ({ address, size } : Block).read position = 0 := by
  simp [read]

theorem Placed.read_eq_zero (hplaced : block.Placed) (hposition : block.wordCount ≤ position) :
    block.read position = 0 := by
  have hwords := hplaced.words
  rw [read, Array.getD_eq_getD_getElem?, Array.getElem?_eq_none (by omega)]
  rfl

end Block

namespace Heap

variable {heap : Heap} {block other : Block} {address position : Nat} {word : UInt64}

@[simp] theorem write_log (heap : Heap) (address position : Nat) (word : UInt64) :
    (heap.write address position word).log = heap.log := by
  unfold write
  split <;> rfl

@[simp] theorem write_bytes (heap : Heap) (address position : Nat) (word : UInt64) :
    (heap.write address position word).bytes = heap.bytes := by
  unfold write
  split <;> rfl

theorem exists_address_of_mem_write (hmem : block ∈ (heap.write address position word).blocks) :
    ∃ old ∈ heap.blocks, old.address = block.address ∧ old.size = block.size := by
  unfold write at hmem
  split at hmem
  · obtain ⟨old, hold, rfl | rfl⟩ := mem_modify_write hmem
    · exact ⟨block, hold, rfl, rfl⟩
    · exact ⟨old, hold, Block.address_write.symm, Block.size_write.symm⟩
  · exact ⟨block, hmem, rfl, rfl⟩

section

variable (hsound : heap.Sound)

include hsound

theorem Sound.exists_position (hmem : block ∈ heap.blocks) :
    ∃ place, heap.index[block.address]? = some place ∧ heap.blocks[place]? = some block := by
  obtain ⟨place, hplace⟩ := Array.mem_iff_getElem?.1 hmem
  exact ⟨place, (hsound.index _ _).2 ⟨block, hplace, rfl⟩, hplace⟩

theorem Sound.eq_of_address (hmem : block ∈ heap.blocks) (hother : other ∈ heap.blocks)
    (haddress : other.address = block.address) : other = block := by
  obtain ⟨place, hplace, hblock⟩ := hsound.exists_position hmem
  obtain ⟨spot, hspot, hfound⟩ := hsound.exists_position hother
  rw [haddress, hplace] at hspot
  obtain rfl := Option.some.inj hspot
  exact Option.some.inj (hfound.symm.trans hblock)

theorem Sound.read_eq (hmem : block ∈ heap.blocks) (position : Nat) :
    heap.read block.address position = block.read position := by
  obtain ⟨place, hplace, hblock⟩ := hsound.exists_position hmem
  simp only [read, hplace, Array.getD_eq_getD_getElem?, hblock, Option.getD_some]

theorem Sound.index_zero : heap.index[0]? = none := by
  rw [Option.eq_none_iff_forall_ne_some]
  intro place hplace
  obtain ⟨block, hblock, hzero⟩ := (hsound.index _ _).1 hplace
  exact (hsound.placed block (Array.mem_of_getElem? hblock)).nonzero hzero

theorem Sound.read_zero (position : Nat) : heap.read 0 position = 0 := by
  rw [read, hsound.index_zero]

theorem Sound.write_zero (position : Nat) (word : UInt64) : heap.write 0 position word = heap := by
  rw [Heap.write, hsound.index_zero]

theorem Sound.mem_write_self (hmem : block ∈ heap.blocks) (position : Nat) (word : UInt64) :
    block.write position word ∈ (heap.write block.address position word).blocks := by
  obtain ⟨place, hplace, hblock⟩ := hsound.exists_position hmem
  rw [Heap.write, hplace]
  refine Array.mem_iff_getElem?.2 ⟨place, ?_⟩
  rw [Array.getElem?_modify, if_pos rfl, hblock]
  rfl

theorem Sound.mem_write_of_ne (hmem : other ∈ heap.blocks) (hother : other.address ≠ address)
    (position : Nat) (word : UInt64) : other ∈ (heap.write address position word).blocks := by
  obtain ⟨spot, hspot, hfound⟩ := hsound.exists_position hmem
  unfold Heap.write
  split
  · rename_i place hplace
    refine Array.mem_iff_getElem?.2 ⟨spot, ?_⟩
    rw [Array.getElem?_modify, if_neg, hfound]
    rintro rfl
    obtain ⟨block, hblock, rfl⟩ := (hsound.index _ _).1 hplace
    exact hother (congrArg Block.address (Option.some.inj (hfound.symm.trans hblock)))
  · exact hmem

/-- After a write the block at its address has the new word, and all others are as they were. -/
theorem Sound.mem_write_iff : block ∈ (heap.write address position word).blocks ↔
      block ∈ heap.blocks ∧ block.address ≠ address ∨
        ∃ old ∈ heap.blocks, old.address = address ∧ block = old.write position word := by
  constructor
  · intro hmem
    have hwritten := hsound.write address position word
    obtain ⟨old, hold, hsame, -⟩ := exists_address_of_mem_write hmem
    by_cases haddress : old.address = address
    · subst haddress
      exact .inr ⟨old, hold, rfl, hwritten.eq_of_address (hsound.mem_write_self hold position word) hmem
        (by rw [Block.address_write, hsame])⟩
    · obtain rfl := hwritten.eq_of_address (hsound.mem_write_of_ne hold haddress position word) hmem hsame.symm
      exact .inl ⟨hold, haddress⟩
  · rintro (⟨hmem, haddress⟩ | ⟨old, hold, rfl, rfl⟩)
    · exact hsound.mem_write_of_ne hmem haddress position word
    · exact hsound.mem_write_self hold position word

theorem Sound.blockAt?_address (hmem : block ∈ heap.blocks) :
    heap.blockAt? block.address = if block.contains block.address then some block else none := by
  have honly (other : Block) (hother : other ∈ heap.blocks) (hcontains : other.contains block.address = true) : other = block := by
    by_contra hne
    have hsymmetric : Std.Symm Block.Apart := ⟨fun first second hapart => ⟨hapart.1.symm, hapart.2.symm⟩⟩
    have hapart := hsound.apart.forall (Array.mem_toList_iff.2 hother) (Array.mem_toList_iff.2 hmem) hne
    simp only [Block.contains, Bool.and_eq_true, decide_eq_true_eq] at hcontains
    have hsame := hapart.1
    have haway := hapart.2
    omega
  split
  · rename_i hcontains
    cases hfound : heap.blockAt? block.address with
    | none => exact absurd hcontains (Array.find?_eq_none.1 hfound block hmem)
    | some other =>
      have hother : other.contains block.address = true := by simpa using Array.find?_some hfound
      rw [honly other (Array.mem_of_find?_eq_some hfound) hother]
  · rename_i hcontains
    refine Array.find?_eq_none.2 fun other hother hfound => hcontains ?_
    rwa [honly other hother hfound] at hfound

end

/-! ### Collections -/

/-- The second heap is the first after collections for the same roots, or none: what the roots reach is still there. -/
structure Survives (roots : List UInt64) (before after : Heap) : Prop where
  arises : after.Arises
  reached : ∀ block, before.Reached roots block → after.Reached roots block
  mem : ∀ block ∈ after.blocks, block ∈ before.blocks

variable {roots : List UInt64}

theorem Survives.refl (harises : heap.Arises) : Survives roots heap heap := ⟨harises, fun _ => id, fun _ => id⟩

theorem Survives.trans {first second third : Heap} (hfirst : Survives roots first second)
    (hsecond : Survives roots second third) : Survives roots first third where
  arises := hsecond.arises
  reached block hblock := hsecond.reached block (hfirst.reached block hblock)
  mem block hblock := hfirst.mem block (hsecond.mem block hblock)

/-- Where all that is reached is kept, the ways to it are kept too. -/
theorem Reached.keep {after : Heap} (hkeep : ∀ block, heap.Reached roots block → block ∈ after.blocks)
    (hreached : heap.Reached roots block) : after.Reached roots block := by
  induction hreached with
  | root hword hrefers =>
    exact .root hword ⟨hrefers.nonzero, hrefers.aligned, hkeep _ (.root hword hrefers), hrefers.address⟩
  | inside houter hposition hrefers ih =>
    have hkept := hkeep _ (.inside houter hposition hrefers)
    exact .inside ih hposition ⟨hrefers.nonzero, hrefers.aligned, hkept, hrefers.address⟩

theorem Sound.mem_collect_iff (hsound : heap.Sound) :
    block ∈ (heap.collect roots).2.blocks ↔ block ∈ heap.blocks ∧ heap.Reached roots block := by
  rw [hsound.collect_eq roots]
  exact List.mem_toArray.trans mem_kept

theorem survives_collect (harises : heap.Arises) (roots : List UInt64) : Survives roots heap (heap.collect roots).2 where
  arises := harises.collect roots
  reached _ := Reached.keep fun _ hblock => harises.sound.mem_collect_iff.2 ⟨hblock.mem, hblock⟩
  mem _ hblock := (harises.sound.mem_collect_iff.1 hblock).1

theorem survives_refuse (harises : heap.Arises) (roots : List UInt64) (size : UInt64) :
    Survives roots heap (heap.refuse size) where
  arises := harises.refuse size
  reached _ := Reached.keep fun _ hblock => hblock.mem
  mem _ := id

/-! ### New blocks -/

/-- The least multiple of eight that is not below a size, nor zero. -/
def roundedUp (size : UInt64) : Nat := (max size.toNat 1 + 7) / 8 * 8

theorem rounded_eq_some_iff {size whole : UInt64} : rounded size = some whole ↔ whole.toNat = roundedUp size := by
  have hpositive : (max size 1).toNat = max size.toNat 1 := by
    show (if size ≤ 1 then 1 else size).toNat = _
    split <;> rename_i hsmall <;> rw [UInt64.le_iff_toNat_le, UInt64.toNat_one] at hsmall
    · rw [Nat.max_eq_right hsmall, UInt64.toNat_one]
    · rw [Nat.max_eq_left (by omega)]
  unfold roundedUp rounded
  rw [← hpositive]
  generalize max size 1 = positive
  have height : (8 : UInt64).toNat = 8 := rfl
  have hrest : (positive % 8).toNat = positive.toNat % 8 := UInt64.toNat_mod ..
  have hwhole := whole.toNat_lt
  dsimp only
  split <;> rename_i hdivides <;> rw [← UInt64.toNat_inj, hrest, UInt64.toNat_zero] at hdivides
  · rw [Option.some.injEq, ← UInt64.toNat_inj]
    omega
  · split <;> rename_i hroom <;> unfold UInt64.size at hroom
    · have hless : positive % 8 ≤ 8 := by
        rw [UInt64.le_iff_toNat_le, hrest]
        exact Nat.le_of_lt (Nat.mod_lt _ (by decide))
      rw [Option.some.injEq, ← UInt64.toNat_inj, UInt64.toNat_add, UInt64.toNat_sub_of_le _ _ hless, hrest, height]
      omega
    · simp only [reduceCtorEq, false_iff]
      omega

theorem rounded_eq_none_iff {size : UInt64} : rounded size = none ↔ 2 ^ 64 ≤ roundedUp size := by
  rw [← Option.not_isSome_iff_eq_none, Option.isSome_iff_exists, ← Nat.not_lt, not_iff_not]
  constructor
  · rintro ⟨whole, hwhole⟩
    exact rounded_eq_some_iff.1 hwhole ▸ whole.toNat_lt
  · exact fun hroom => ⟨UInt64.ofNat (roundedUp size), rounded_eq_some_iff.2 (UInt64.toNat_ofNat_of_lt' hroom)⟩

theorem rounded_words {count : Nat} (hpositive : 0 < count) (hbound : count * 8 < 2 ^ 64) :
    rounded (count * 8).toUInt64 = some (count * 8).toUInt64 := by
  have hsize : (count * 8).toUInt64.toNat = count * 8 := UInt64.toNat_ofNat_of_lt' hbound
  rw [rounded_eq_some_iff, roundedUp, hsize]
  omega

theorem wouldExceed_eq_some_iff {size : UInt64} {exceeds : Bool} :
    heap.wouldExceed size = some exceeds ↔
      heap.bytes.toNat + size.toNat < 2 ^ 64 ∧ (exceeds = true ↔ limit.toNat < heap.bytes.toNat + size.toNat) := by
  unfold wouldExceed UInt64.size
  split
  · next hroom =>
    have hsum : limit < heap.bytes + size ↔ limit.toNat < heap.bytes.toNat + size.toNat := by
      rw [UInt64.lt_iff_toNat_lt, UInt64.toNat_add, Nat.mod_eq_of_lt hroom]
    rw [Option.some.injEq, Bool.eq_iff_iff, decide_eq_true_iff, hsum]
    exact ⟨fun hexceeds => ⟨hroom, hexceeds.symm⟩, fun hexceeds => hexceeds.2.symm⟩
  · next hroom => simp [hroom]

theorem wouldExceed_eq_none_iff {size : UInt64} :
    heap.wouldExceed size = none ↔ 2 ^ 64 ≤ heap.bytes.toNat + size.toNat := by
  unfold wouldExceed UInt64.size
  split <;> rename_i hroom
  · simp only [reduceCtorEq, false_iff]
    omega
  · exact ⟨fun _ => Nat.not_lt.1 hroom, fun _ => rfl⟩

variable {size : UInt64} {allocator : Allocator}

theorem mem_insert : block ∈ (heap.insert address size).blocks ↔ block ∈ heap.blocks ∨ block = { address, size } :=
  Array.mem_push

theorem Fresh.ne_address (hfresh : heap.Fresh address size) (hmem : block ∈ heap.blocks) : block.address ≠ address :=
  (hfresh.apart block hmem).1

/-- A request is refused, or met with a place for the block. -/
theorem place_cases (harises : heap.Arises) (allocator : Allocator) (size : UInt64) :
    (∃ address, heap.Fresh address size ∧ size ≤ largest ∧
        heap.place allocator size = (some address, heap.insert address size)) ∨
      heap.place allocator size = (none, heap.refuse size) := by
  unfold place
  by_cases hlarge : largest < size
  · rw [if_pos hlarge]
    exact .inr rfl
  · rw [if_neg hlarge]
    cases hplace : allocator.place heap size with
    | none => exact .inr rfl
    | some address => exact .inl ⟨address, allocator.fresh harises.sound.bounded hplace, UInt64.not_lt.1 hlarge, rfl⟩

/-! ### Ways around -/

/-- The roots lead to an address by blocks of which none is at one of the `own` addresses. -/
inductive Led (heap : Heap) (roots : List UInt64) (own : List Nat) : Nat → Prop
  | root {word : UInt64} (hword : word ∈ roots) : Led heap roots own (pointee word)
  | inside {outer : Block} {position : Nat} (houter : Led heap roots own outer.address) (hmem : outer ∈ heap.blocks)
      (hown : outer.address ∉ own) (hposition : position < outer.wordCount) : Led heap roots own (pointee (outer.read position))

theorem Led.reached {own : List Nat} (hled : heap.Led roots own address) (hsound : heap.Sound)
    (hmem : block ∈ heap.blocks) (haddress : block.address = address) : heap.Reached roots block := by
  induction hled generalizing block with
  | root hword =>
    have hplaced := hsound.placed block hmem
    exact .root hword ⟨haddress ▸ hplaced.nonzero, haddress ▸ hplaced.aligned, hmem, haddress⟩
  | inside houter houterMem hown hposition ih =>
    have hplaced := hsound.placed block hmem
    exact .inside (ih houterMem rfl) hposition ⟨haddress ▸ hplaced.nonzero, haddress ▸ hplaced.aligned, hmem, haddress⟩

theorem Led.keep {before after : Heap} {own newOwn : List Nat} (hled : before.Led roots own address)
    (hsound : before.Sound)
    (hkeep : ∀ block, before.Reached roots block → block.address ∉ own → block ∈ after.blocks ∧ block.address ∉ newOwn)
    : after.Led roots newOwn address := by
  induction hled with
  | root hword => exact .root hword
  | inside houter hmem hown hposition ih =>
    obtain ⟨hafter, hnewOwn⟩ := hkeep _ (houter.reached hsound hmem rfl) hown
    exact .inside ih hafter hnewOwn hposition

/-- A way to a block need not pass through the block, nor through one without words. -/
theorem Reached.led {empty : Block} (hreached : heap.Reached roots block) (hsound : heap.Sound) (hempty : empty ∈ heap.blocks)
    (hzero : ∀ position, empty.read position = 0) : heap.Led roots [block.address, empty.address] block.address := by
  suffices hall : ∀ other, heap.Reached roots other → heap.Led roots [block.address, empty.address] other.address ∨
      heap.Led roots [block.address, empty.address] block.address from (hall block hreached).elim id id
  intro other hother
  induction hother with
  | root hword hrefers => exact .inl (hrefers.address ▸ .root hword)
  | @inside outer other position houter hposition hrefers ih =>
    rcases ih with hled | hled
    · by_cases hsame : outer.address = block.address
      · exact .inr (hsame ▸ hled)
      · by_cases hnothing : outer.address = empty.address
        · rw [hsound.eq_of_address hempty houter.mem hnothing, hzero] at hrefers
          exact absurd rfl hrefers.nonzero
        · exact .inl (hrefers.address ▸ .inside hled houter.mem (by simp [hsame, hnothing]) hposition)
    · exact .inr hled

end Heap

/-! ### Steps of a run -/

/-- The state in which a run ends, well or badly. -/
def endState {ε σ α : Type} : EStateM.Result ε σ α → σ
  | .ok _ state => state
  | .error _ state => state

namespace Run

section

variable {α β : Type} {action : Run α} {next : α → Run β} {machine after : Machine} {result : α} {problem : RuntimeError}

theorem bind_of_ok (hok : action machine = .ok result after) : (action >>= next) machine = next result after := by
  simp only [bind, EStateM.bind, hok]

theorem bind_of_error (herror : action machine = .error problem after) : (action >>= next) machine = .error problem after := by
  simp only [bind, EStateM.bind, herror]

theorem read_run (machine : Machine) (address position : Nat) :
    read address position machine = .ok (machine.heap.read address position) machine := rfl

end

/-! ### Allocation by the machine -/

variable {machine : Machine}

theorem place?_run {heap after : Heap} {size : UInt64} {address? : Option Nat}
    (hplace : heap.place machine.allocator size = (address?, after)) :
    place? size { machine with heap } = .ok address? { machine with heap := after } := by
  show EStateM.Result.ok (heap.place machine.allocator size).1
    { machine with heap := (heap.place machine.allocator size).2 } = _
  rw [hplace]

theorem get_run (machine : Machine) : (get : Run Machine) machine = .ok machine machine := rfl

theorem collect_run (machine : Machine) : collect machine =
    .ok (machine.heap.collect machine.roots).1 { machine with heap := (machine.heap.collect machine.roots).2 } := rfl

/-- The heap in which a block is first asked for: it has been collected if the budget asked for it. -/
def defended (machine : Machine) (exceeds : Bool) : Heap :=
  if exceeds then (machine.heap.collect machine.roots).2 else machine.heap

/-- The heap in which a block is asked for once more. -/
def cleared (machine : Machine) (size : UInt64) (exceeds : Bool) : Heap :=
  (((defended machine exceeds).refuse size).collect machine.roots).2

theorem survives_defended (harises : machine.heap.Arises) (exceeds : Bool) :
    Survives machine.roots machine.heap (defended machine exceeds) := by
  cases exceeds with
  | false => exact .refl harises
  | true => exact survives_collect harises machine.roots

theorem survives_cleared (harises : machine.heap.Arises) (size : UInt64) (exceeds : Bool) :
    Survives machine.roots machine.heap (cleared machine size exceeds) := by
  have hdefended := survives_defended harises exceeds
  have hrefused := survives_refuse hdefended.arises machine.roots size
  exact hdefended.trans (hrefused.trans (survives_collect hrefused.arises machine.roots))

/-- How a request for a block ends: with the block at once, with the block after a collection, or without it. -/
inductive Ending (machine : Machine) (size : UInt64) (exceeds : Bool) : EStateM.Result RuntimeError Machine Nat → Prop
  | once {address : Nat} (hfresh : (defended machine exceeds).Fresh address size) (hsmall : size ≤ largest) :
      Ending machine size exceeds (.ok address { machine with heap := (defended machine exceeds).insert address size })
  | again {address : Nat} (hfresh : (cleared machine size exceeds).Fresh address size) (hsmall : size ≤ largest) :
      Ending machine size exceeds (.ok address { machine with heap := (cleared machine size exceeds).insert address size })
  | never : Ending machine size exceeds
      (.error (.outOfMemory size.toNat) { machine with heap := (cleared machine size exceeds).refuse size })

theorem request_ending (harises : machine.heap.Arises) (size : UInt64) (exceeds : Bool) :
    Ending machine size exceeds (request size { machine with heap := defended machine exceeds }) := by
  rcases place_cases (survives_defended harises exceeds).arises machine.allocator size with
    ⟨address, hfresh, hsmall, hplace⟩ | hrefused
  · rw [request, bind_of_ok (place?_run hplace)]
    exact .once hfresh hsmall
  · rw [request, bind_of_ok (place?_run hrefused)]
    dsimp only
    rw [bind_of_ok (collect_run _)]
    show Ending machine size exceeds ((place? size >>= _) { machine with heap := cleared machine size exceeds })
    rcases place_cases (survives_cleared harises size exceeds).arises machine.allocator size with
      ⟨address, hfresh, hsmall, hplace⟩ | hagain
    · rw [bind_of_ok (place?_run hplace)]
      exact .again hfresh hsmall
    · rw [bind_of_ok (place?_run hagain)]
      exact .never

theorem allocate_run {size whole : UInt64} {exceeds : Bool} (hwhole : rounded size = some whole)
    (hexceeds : machine.heap.wouldExceed whole = some exceeds) :
    allocate size machine = request whole { machine with heap := defended machine exceeds } := by
  simp only [allocate, hwhole]
  rw [bind_of_ok (get_run machine), hexceeds]
  cases exceeds <;> rfl

theorem allocate_overflow {size : UInt64}
    (hover : rounded size = none ∨ ∃ whole, rounded size = some whole ∧ machine.heap.wouldExceed whole = none) :
    allocate size machine = .error .overflow machine := by
  rcases hover with hover | ⟨whole, hwhole, hover⟩
  · simp only [allocate, hover]
    rfl
  · simp only [allocate, hwhole]
    rw [bind_of_ok (get_run machine), hover]
    rfl

/-- An allocation of a size that is rounded, in a heap to which it can be added, ends in one of three ways. -/
theorem allocate_ending (harises : machine.heap.Arises) {size whole : UInt64} {exceeds : Bool}
    (hwhole : rounded size = some whole) (hexceeds : machine.heap.wouldExceed whole = some exceeds) :
    Ending machine whole exceeds (allocate size machine) :=
  allocate_run hwhole hexceeds ▸ request_ending harises whole exceeds

theorem Sound.bytes_le {heap : Heap} (hsound : heap.Sound) : heap.bytes.toNat ≤ ceiling :=
  hsound.bytes ▸ sum_sizes_le hsound.apart fun block hblock => hsound.placed block (Array.mem_toList_iff.1 hblock)

/-- An allocation of a size well below the largest succeeds or fails in a heap from which only blocks that are not reached
have been taken. -/
theorem allocate_cases (harises : machine.heap.Arises) {size whole : UInt64} (hwhole : rounded size = some whole)
    (hroom : whole.toNat ≤ largest.toNat) :
    ∃ base, Survives machine.roots machine.heap base ∧
      ((∃ address, base.Fresh address whole ∧
          allocate size machine = .ok address { machine with heap := base.insert address whole }) ∨
        allocate size machine = .error (.outOfMemory whole.toNat) { machine with heap := base }) := by
  have hbytes := Sound.bytes_le harises.sound
  have hsum : machine.heap.wouldExceed whole ≠ none := by
    rw [Ne, wouldExceed_eq_none_iff]
    unfold ceiling at hbytes
    have hlargest : largest.toNat = 0x7FFFFFFFFFFFFFF8 := rfl
    omega
  obtain ⟨exceeds, hexceeds⟩ := Option.ne_none_iff_exists'.1 hsum
  have hcleared := survives_cleared harises whole exceeds
  have hending := allocate_ending harises hwhole hexceeds
  generalize allocate size machine = result at hending ⊢
  cases hending with
  | once hfresh => exact ⟨_, survives_defended harises exceeds, .inl ⟨_, hfresh, rfl⟩⟩
  | again hfresh => exact ⟨_, hcleared, .inl ⟨_, hfresh, rfl⟩⟩
  | never => exact ⟨_, hcleared.trans (survives_refuse hcleared.arises _ whole), .inr rfl⟩

end Run

end NanScript
