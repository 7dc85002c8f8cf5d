import NanScript.Proofs.Heap.Reachability

/-!
# A collection keeps what is reached

Sweeping keeps the marked blocks in their order, clears their marks and makes index, filter and count anew, so a heap that is
in order stays so over any sequence of allocations, writes and collections.
-/

namespace NanScript.Heap

open List

variable {blocks : List Block}

/-! ### Index, filter and count anew -/

/-- A block at a position of a list that is counted from an offset on. -/
def At (blocks : List Block) (offset address position : Nat) : Prop :=
  ∃ block : Block, offset ≤ position ∧ blocks[position - offset]? = some block ∧ block.address = address

theorem at_cons {first : Block} {rest : List Block} {offset address position : Nat} :
    At (first :: rest) offset address position ↔
      position = offset ∧ first.address = address ∨ At rest (offset + 1) address position := by
  unfold At
  rcases Nat.lt_trichotomy position offset with hless | rfl | hmore
  · have hno : ¬ offset ≤ position ∧ ¬ offset + 1 ≤ position ∧ position ≠ offset := by omega
    simp [hno]
  · simp only [Nat.le_refl, Nat.not_succ_le_self, Nat.sub_self, getElem?_cons_zero, Option.some.injEq, true_and, false_and,
      exists_false, or_false, exists_eq_left']
  · have hsucc : position - offset = position - (offset + 1) + 1 := by omega
    have hyes : offset ≤ position ∧ offset + 1 ≤ position ∧ position ≠ offset := by omega
    simp [hsucc, hyes]

theorem At.exists_mem {offset address position : Nat} (hat : At blocks offset address position) :
    ∃ block ∈ blocks, block.address = address := by
  obtain ⟨block, -, hblock, haddress⟩ := hat
  exact ⟨block, mem_of_getElem? hblock, haddress⟩

theorem getElem?_foldl_insert (hapart : blocks.Pairwise Block.Apart) (offset : Nat)
    (index : Std.HashMap Nat Nat) (address position : Nat) :
    ((blocks.zipIdx offset).foldl (fun index (block, position) => index.insert block.address position) index)[address]? =
        some position ↔
      At blocks offset address position ∨ index[address]? = some position ∧ ∀ block ∈ blocks, block.address ≠ address := by
  induction blocks generalizing offset index with
  | nil => simp [At]
  | cons first rest ih =>
    obtain ⟨hfirst, hrest⟩ := pairwise_cons.1 hapart
    rw [zipIdx_cons, foldl_cons, ih hrest, Std.HashMap.getElem?_insert, at_cons, forall_mem_cons]
    by_cases haddress : first.address = address
    · -- The address of the first block is that of no other.
      have hothers : ∀ block ∈ rest, block.address ≠ address := fun block hblock hsame =>
        (hfirst block hblock).1 (haddress.trans hsame.symm)
      have hnone : ¬ At rest (offset + 1) address position := fun hat => by
        obtain ⟨block, hblock, hsame⟩ := hat.exists_mem
        exact hothers block hblock hsame
      simp only [haddress, beq_self_eq_true, if_true, Option.some.injEq, hnone, false_or, or_false, and_true, ne_eq,
        not_true_eq_false, false_and, and_false]
      exact ⟨fun hhere => hhere.1.symm, fun hhere => ⟨hhere.symm, hothers⟩⟩
    · simp [haddress]

theorem getElem?_indexOf (hapart : blocks.Pairwise Block.Apart) (address position : Nat) :
    (indexOf blocks)[address]? = some position ↔ ∃ block : Block, blocks[position]? = some block ∧ block.address = address := by
  rw [indexOf, getElem?_foldl_insert hapart]
  simp [At]

theorem mayContain_foldl {addresses : List Nat} {filter : Filter} {address : Nat}
    (haddress : filter.mayContain address = true ∨ address ∈ addresses) :
    (addresses.foldl Filter.insert filter).mayContain address = true := by
  induction addresses generalizing filter with
  | nil => exact haddress.resolve_right not_mem_nil
  | cons first rest ih =>
    apply ih
    rcases haddress with hold | hmem
    · exact .inl (by rw [Filter.mayContain_insert, hold, Bool.true_or])
    · rcases mem_cons.1 hmem with rfl | hmem
      · exact .inl (Filter.mayContain_insert_self _ _)
      · exact .inr hmem

theorem mayContain_ofList {addresses : List Nat} {address : Nat} (haddress : address ∈ addresses) :
    (Filter.ofList addresses).mayContain address = true := mayContain_foldl (.inr haddress)

theorem toNat_foldl_size {start : UInt64} (hroom : start.toNat + (blocks.map (·.size.toNat)).sum < 2 ^ 64) :
    (blocks.foldl (fun total block => total + block.size) start).toNat =
      start.toNat + (blocks.map (·.size.toNat)).sum := by
  induction blocks generalizing start with
  | nil => rfl
  | cons first rest ih =>
    rw [map_cons, sum_cons, ← Nat.add_assoc] at hroom
    have hstep : (start + first.size).toNat = start.toNat + first.size.toNat := by
      rw [UInt64.toNat_add]
      exact Nat.mod_eq_of_lt (Nat.lt_of_le_of_lt (Nat.le_add_right _ _) hroom)
    rw [foldl_cons, ih (hstep ▸ hroom), hstep, map_cons, sum_cons, Nat.add_assoc]

/-! ### Sweeping -/

section

variable {heap : Heap} {roots : List UInt64}

open Classical in
noncomputable def kept (heap : Heap) (roots : List UInt64) : List Block :=
  heap.blocks.toList.filter fun block => heap.Reached roots block

open Classical in
noncomputable def freed (heap : Heap) (roots : List UInt64) : List Block :=
  heap.blocks.toList.filter fun block => ¬ heap.Reached roots block

theorem mem_kept {block : Block} : block ∈ heap.kept roots ↔ block ∈ heap.blocks ∧ heap.Reached roots block := by
  simp [kept]

theorem sum_kept_add_freed (extent : Block → Nat) :
    ((heap.kept roots).map extent).sum + ((heap.freed roots).map extent).sum = (heap.blocks.toList.map extent).sum := by
  classical
  rw [← sum_append, ← map_append]
  have hperm := (filter_append_perm (fun block => decide (heap.Reached roots block)) heap.blocks.toList).map extent
  rw [← hperm.sum_nat, kept, freed]
  simp

open Classical in
/-- The blocks that marking leaves with a mark, or without one, are those that are reached, or are not. -/
theorem Sound.filter_mark (hsound : heap.Sound) (roots : List UInt64) (choose : Bool → Bool) :
    (heap.mark roots).blocks.toList.filter (choose ·.marked) =
      (heap.blocks.toList.filter fun block => choose (decide (heap.Reached roots block))).map
        fun block => { block with marked := decide (heap.Reached roots block) } := by
  rw [hsound.mark_eq, Array.toList_map, filter_map]
  rfl

theorem Sound.marked_kept (hsound : heap.Sound) (roots : List UInt64) :
    ((heap.mark roots).blocks.toList.filter (·.marked)).map Block.unmark = heap.kept roots := by
  have hkept := hsound.filter_mark roots id
  rw [show (heap.mark roots).blocks.toList.filter (·.marked) = _ from hkept, map_map]
  refine (map_congr_left fun block hblock => ?_).trans (map_id' _)
  have hunmarked := (hsound.placed block (Array.mem_toList_iff.1 (mem_filter.1 hblock).1)).unmarked
  rw [Function.comp_apply, Block.unmark, ← hunmarked]

open Classical in
/-- What is freed differs from what is not reached at most in marks, which have no extent. -/
theorem Sound.marked_freed {α : Type} (hsound : heap.Sound) (roots : List UInt64) {extent : Block → α}
    (hextent : ∀ block mark, extent { block with marked := mark } = extent block) :
    ((heap.mark roots).blocks.toList.filter (!·.marked)).map extent = (heap.freed roots).map extent := by
  have hfreed : heap.freed roots = heap.blocks.toList.filter fun block => !decide (heap.Reached roots block) :=
    filter_congr fun block _ => by simp
  rw [hsound.filter_mark roots not, map_map, hfreed]
  exact map_congr_left fun block _ => hextent block _

theorem Sound.freed_sizes_le (hsound : heap.Sound) (roots : List UInt64) :
    ((heap.freed roots).map (·.size.toNat)).sum ≤ ceiling := by
  have htotal := sum_sizes_le hsound.apart fun block hblock => hsound.placed block (Array.mem_toList_iff.1 hblock)
  have hparts := @sum_kept_add_freed heap roots (·.size.toNat)
  omega

theorem Sound.collect_eq (hsound : heap.Sound) (roots : List UInt64) : heap.collect roots =
    (⟨(heap.freed roots).length, ((heap.freed roots).map (·.size.toNat)).sum⟩,
      { blocks := (heap.kept roots).toArray
        index := indexOf (heap.kept roots)
        bytes := heap.bytes - UInt64.ofNat ((heap.freed roots).map (·.size.toNat)).sum
        filter := Filter.ofList ((heap.kept roots).map Block.address)
        top := heap.top
        log := .collected :: heap.log }) := by
  let unmarked := (heap.mark roots).blocks.toList.filter (!·.marked)
  have hlength : unmarked.length = (heap.freed roots).length := by
    rw [← length_map Block.address, hsound.marked_freed roots fun _ _ => rfl, length_map]
  have hsizes : (unmarked.map (·.size.toNat)).sum = ((heap.freed roots).map (·.size.toNat)).sum :=
    congrArg sum (hsound.marked_freed roots fun _ _ => rfl)
  have hbytes : (unmarked.foldl (fun total block => total + block.size) (0 : UInt64)).toNat =
      ((heap.freed roots).map (·.size.toNat)).sum := by
    have hzero : (0 : UInt64).toNat = 0 := rfl
    rw [toNat_foldl_size, hzero, Nat.zero_add, hsizes]
    rw [hsizes, hzero, Nat.zero_add]
    exact Nat.lt_of_le_of_lt (hsound.freed_sizes_le roots) (by decide)
  have hcollect : heap.collect roots =
      (⟨unmarked.length, (unmarked.foldl (fun total block => total + block.size) (0 : UInt64)).toNat⟩,
        { blocks := (heap.kept roots).toArray
          index := indexOf (heap.kept roots)
          bytes := heap.bytes - unmarked.foldl (fun total block => total + block.size) 0
          filter := Filter.ofList ((heap.kept roots).map Block.address)
          top := heap.top
          log := .collected :: heap.log }) := by
    obtain ⟨hcount, htop, hlog⟩ : (heap.mark roots).bytes = heap.bytes ∧ (heap.mark roots).top = heap.top ∧
        (heap.mark roots).log = heap.log := by
      rw [hsound.mark_eq]
      exact ⟨rfl, rfl, rfl⟩
    unfold collect sweep
    rw [partition_eq_filter_filter, ← hsound.marked_kept roots, hcount, htop, hlog]
    rfl
  rw [hcollect, hlength, hbytes, ← hbytes, UInt64.ofNat_toNat]

theorem Sound.collect (hsound : heap.Sound) (roots : List UInt64) : (heap.collect roots).2.Sound := by
  have hmem (block : Block) (hblock : block ∈ (heap.kept roots).toArray) : block ∈ heap.blocks :=
    (mem_kept.1 (mem_toArray.1 hblock)).1
  have hapart : (heap.kept roots).Pairwise Block.Apart := hsound.apart.sublist filter_sublist
  rw [hsound.collect_eq roots]
  refine ⟨fun address position => ?_, ?_, ?_, hapart, fun block hblock => hsound.placed block (hmem block hblock),
    fun block hblock => hsound.bounded block (hmem block hblock)⟩
  · simp only [getElem?_toArray]
    exact getElem?_indexOf hapart address position
  · intro block hblock
    exact mayContain_ofList (mem_map_of_mem (mem_toArray.1 hblock))
  · have hparts := @sum_kept_add_freed heap roots (·.size.toNat)
    have hfits := hsound.freed_sizes_le roots
    have hbytes := hsound.bytes
    show (heap.bytes - UInt64.ofNat ((heap.freed roots).map (·.size.toNat)).sum).toNat =
      ((heap.kept roots).map (·.size.toNat)).sum
    have hsmall : ((heap.freed roots).map (·.size.toNat)).sum < 2 ^ 64 := by
      have hbound : ceiling < 2 ^ 64 := by decide
      omega
    have hfreed : (UInt64.ofNat ((heap.freed roots).map (·.size.toNat)).sum).toNat =
        ((heap.freed roots).map (·.size.toNat)).sum := UInt64.toNat_ofNat_of_lt' hsmall
    have hle : UInt64.ofNat ((heap.freed roots).map (·.size.toNat)).sum ≤ heap.bytes := by
      rw [UInt64.le_iff_toNat_le, hfreed]
      omega
    rw [UInt64.toNat_sub_of_le _ _ hle, hfreed]
    omega

end

/-! ### Every heap -/

/-- The heaps that allocations, writes and collections lead to, in any order. An allocator may put a block wherever there is
room for it, and may refuse any block. -/
inductive Arises : Heap → Prop
  | empty : Arises {}
  | insert {heap : Heap} {address : Nat} {size : UInt64} (hbefore : Arises heap) (hfresh : heap.Fresh address size) :
      Arises (heap.insert address size)
  | refuse {heap : Heap} (hbefore : Arises heap) (size : UInt64) : Arises (heap.refuse size)
  | write {heap : Heap} (hbefore : Arises heap) (address position : Nat) (word : UInt64) :
      Arises (heap.write address position word)
  | collect {heap : Heap} (hbefore : Arises heap) (roots : List UInt64) : Arises (heap.collect roots).2

theorem Arises.sound {heap : Heap} (harises : heap.Arises) : heap.Sound := by
  induction harises with
  | empty => exact sound_empty
  | insert _ hfresh ih => exact ih.insert hfresh
  | refuse _ size ih => exact ih.refuse size
  | write _ address position word ih => exact ih.write address position word
  | collect _ roots ih => exact ih.collect roots

theorem Arises.place {heap : Heap} {address : Nat} (allocator : Allocator) (size : UInt64) (harises : heap.Arises)
    (hplace : allocator.place heap size = some address) : (heap.insert address size).Arises :=
  harises.insert (allocator.fresh harises.sound.bounded hplace)

end NanScript.Heap
