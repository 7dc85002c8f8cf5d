import Mathlib.Order.Bounds.Defs
import NanScript.Proofs.Heap.Access

/-!
# The budget is kept, or all that is there is in use

An allocation collects first if the block would exceed the budget, and once more if the block is refused. Whatever was allocated,
written and made a root before, the count of bytes is that of the blocks. So a heap above its budget has just been collected, and
holds what the roots reach and the new block. What happened in a call stands in the log of the heap.
-/

namespace NanScript

namespace Heap

variable {heap after : Heap} {size : UInt64} {roots : List UInt64}

/-- What the reached blocks weigh. -/
noncomputable def keptBytes (heap : Heap) (roots : List UInt64) : Nat := ((heap.kept roots).map (·.size.toNat)).sum

theorem Arises.bytes_collect (harises : heap.Arises) : (heap.collect roots).2.bytes.toNat = heap.keptBytes roots := by
  rw [(harises.collect roots).sound.bytes, harises.sound.collect_eq, keptBytes]

theorem Sound.keptBytes_le (hsound : heap.Sound) (roots : List UInt64) : heap.keptBytes roots ≤ heap.bytes.toNat := by
  rw [hsound.bytes, ← @sum_kept_add_freed heap roots]
  exact Nat.le_add_right ..

theorem Sound.nodup_kept (hsound : heap.Sound) (roots : List UInt64) : (heap.kept roots).Nodup :=
  (hsound.apart.sublist List.filter_sublist).imp fun hapart hsame => hapart.1 (congrArg Block.address hsame)

/-- Collections for the same roots leave the weight of what is reached alone. -/
theorem Survives.keptBytes_eq (hsurvives : Survives roots heap after) (hsound : heap.Sound) :
    after.keptBytes roots = heap.keptBytes roots := by
  have hreached (block : Block) : after.Reached roots block ↔ heap.Reached roots block :=
    ⟨Reached.keep fun other hother => hsurvives.mem other hother.mem, hsurvives.reached block⟩
  have hperm : (after.kept roots).Perm (heap.kept roots) := by
    refine (List.perm_ext_iff_of_nodup (hsurvives.arises.sound.nodup_kept roots) (hsound.nodup_kept roots)).2 fun block => ?_
    rw [mem_kept, mem_kept, hreached]
    exact ⟨fun hblock => ⟨hblock.2.mem, hblock.2⟩, fun hblock => ⟨((hreached block).2 hblock.2).mem, hblock.2⟩⟩
  exact (hperm.map _).sum_nat

@[simp] theorem log_insert (address : Nat) : (heap.insert address size).log = .placed address size :: heap.log := rfl

@[simp] theorem log_refuse : (heap.refuse size).log = .refused size :: heap.log := rfl

theorem log_noteAll (marking : Marking) (words : List UInt64) : (marking.noteAll words).heap.log = marking.heap.log := by
  induction words generalizing marking with
  | nil => rfl
  | cons word rest ih =>
    refine (ih _).trans ?_
    unfold Marking.note
    split
    · split
      · split <;> rfl
      · rfl
    · rfl

theorem log_drain (marking : Marking) : marking.drain.log = marking.heap.log := by
  fun_induction Marking.drain marking with
  | case1 marking hpending => rfl
  | case2 marking position rest hpending ih => exact ih.trans (log_noteAll _ _)

@[simp] theorem log_collect (roots : List UInt64) : (heap.collect roots).2.log = .collected :: heap.log :=
  congrArg (Event.collected :: ·) ((log_drain _).trans (log_noteAll _ roots))

theorem Arises.toNat_bytes_insert {address : Nat} (harises : heap.Arises) (hfresh : heap.Fresh address size) :
    (heap.insert address size).bytes.toNat = heap.bytes.toNat + size.toNat := by
  have hblocks : (heap.insert address size).blocks.toList = heap.blocks.toList ++ [({ address, size } : Block)] :=
    Array.toList_push
  rw [(harises.insert hfresh).sound.bytes, harises.sound.bytes, hblocks, List.map_append, List.sum_append]
  simp

end Heap

/-! ### Runs -/

/-- A machine that has allocated and written, each time with any roots and any allocator, from an empty heap. -/
inductive Machine.Worked : Machine → Prop
  | start {machine : Machine} (hheap : machine.heap = {}) : Worked machine
  | allocated {machine after : Machine} {size : UInt64} {address : Nat} (hbefore : Worked machine)
      (hrun : Run.allocate size machine = .ok address after) : Worked after
  | refused {machine after : Machine} {size : UInt64} {problem : RuntimeError} (hbefore : Worked machine)
      (hrun : Run.allocate size machine = .error problem after) : Worked after
  | written {machine after : Machine} {address position : Nat} {word : UInt64} (hbefore : Worked machine)
      (hrun : Run.write address position word machine = .ok () after) : Worked after
  | rerooted {machine other : Machine} (hbefore : Worked machine) (hheap : other.heap = machine.heap) : Worked other

namespace Run

open Heap

variable {machine : Machine} {size whole : UInt64} {exceeds : Bool} {result : EStateM.Result RuntimeError Machine Nat}

/-- Either the sizes do not fit a word, and nothing happens, or the call ends in one of three ways. -/
theorem allocate_overflow_or_ending (harises : machine.heap.Arises) (size : UInt64) :
    2 ^ 64 ≤ machine.heap.bytes.toNat + roundedUp size ∧ allocate size machine = .error .overflow machine ∨
      ∃ whole exceeds, whole.toNat = roundedUp size ∧ machine.heap.bytes.toNat + roundedUp size < 2 ^ 64 ∧
        (exceeds = true ↔ limit.toNat < machine.heap.bytes.toNat + roundedUp size) ∧
        Ending machine whole exceeds (allocate size machine) := by
  cases hwhole : rounded size with
  | none =>
    have hover := rounded_eq_none_iff.1 hwhole
    exact .inl ⟨by omega, allocate_overflow (.inl hwhole)⟩
  | some whole =>
    have hsize := rounded_eq_some_iff.1 hwhole
    cases hexceeds : machine.heap.wouldExceed whole with
    | none =>
      have hover := wouldExceed_eq_none_iff.1 hexceeds
      exact .inl ⟨hsize ▸ hover, allocate_overflow (.inr ⟨whole, hwhole, hexceeds⟩)⟩
    | some exceeds =>
      obtain ⟨hroom, hlimit⟩ := wouldExceed_eq_some_iff.1 hexceeds
      exact .inr ⟨whole, exceeds, hsize, hsize ▸ hroom, hsize ▸ hlimit, allocate_ending harises hwhole hexceeds⟩

theorem Ending.arises (hending : Ending machine whole exceeds result) (harises : machine.heap.Arises) :
    (endState result).heap.Arises := by
  have hcleared := (survives_cleared harises whole exceeds).arises
  cases hending with
  | once hfresh => exact (survives_defended harises exceeds).arises.insert hfresh
  | again hfresh => exact hcleared.insert hfresh
  | never => exact hcleared.refuse whole

theorem log_defended (machine : Machine) (exceeds : Bool) :
    (defended machine exceeds).log = (if exceeds then [.collected] else []) ++ machine.heap.log := by
  cases exceeds with
  | false => rfl
  | true => exact log_collect machine.roots

theorem log_cleared (machine : Machine) (whole : UInt64) (exceeds : Bool) : (cleared machine whole exceeds).log =
    .collected :: .refused whole :: (if exceeds then [.collected] else []) ++ machine.heap.log := by
  rw [cleared, log_collect, log_refuse, log_defended]
  rfl

/-- What happens in a call: there is a collection if the budget asked for it or the block was refused. -/
theorem Ending.events (hending : Ending machine whole exceeds result) :
    ∃ events, (endState result).heap.log = events ++ machine.heap.log ∧
      (.collected ∈ events ↔ exceeds = true ∨ .refused whole ∈ events) := by
  cases hending with
  | @once address =>
    refine ⟨.placed address whole :: if exceeds then [.collected] else [], ?_, ?_⟩
    · rw [endState, log_insert, log_defended]
      rfl
    · cases exceeds <;> simp
  | @again address =>
    refine ⟨.placed address whole :: .collected :: .refused whole :: if exceeds then [.collected] else [], ?_, by simp⟩
    rw [endState, log_insert, log_cleared]
    rfl
  | never =>
    refine ⟨.refused whole :: .collected :: .refused whole :: if exceeds then [.collected] else [], ?_, by simp⟩
    rw [endState, log_refuse, log_cleared]
    rfl

theorem bytes_cleared (harises : machine.heap.Arises) :
    (cleared machine whole exceeds).bytes.toNat = machine.heap.keptBytes machine.roots := by
  have hdefended := survives_defended harises exceeds
  have hrefused := hdefended.trans (survives_refuse hdefended.arises machine.roots whole)
  rw [cleared, hrefused.arises.bytes_collect, hrefused.keptBytes_eq harises.sound]

theorem bytes_defended (harises : machine.heap.Arises) : (defended machine exceeds).bytes.toNat =
    if exceeds then machine.heap.keptBytes machine.roots else machine.heap.bytes.toNat := by
  cases exceeds with
  | false => rfl
  | true => exact harises.bytes_collect

end Run

namespace Machine

open Heap

variable {machine : Machine} {size : UInt64}

theorem Worked.arises (hworked : machine.Worked) : machine.heap.Arises := by
  have hallocated {machine : Machine} (ih : machine.heap.Arises) (size : UInt64) :
      (endState (Run.allocate size machine)).heap.Arises := by
    rcases Run.allocate_overflow_or_ending ih size with ⟨-, herror⟩ | ⟨whole, exceeds, -, -, -, hending⟩
    · rw [herror]
      exact ih
    · exact hending.arises ih
  induction hworked with
  | start hheap => exact hheap ▸ .empty
  | @allocated machine after size address _ hrun ih =>
    have hafter := hallocated ih size
    rwa [hrun] at hafter
  | @refused machine after size problem _ hrun ih =>
    have hafter := hallocated ih size
    rwa [hrun] at hafter
  | written _ hrun ih =>
    cases hrun
    exact ih.write ..
  | rerooted _ hheap ih => exact hheap ▸ ih

/-- A collection runs inside a call exactly if the block would exceed the budget or the allocator refused it. After a call that
gives a block the budget is kept, or what there is is in use; and after one that does not, nothing in use is lost. -/
theorem budget_defended (hworked : machine.Worked) (hfits : machine.heap.bytes.toNat + roundedUp size < 2 ^ 64) :
    ∃ events, (endState (Run.allocate size machine)).heap.log = events ++ machine.heap.log ∧
      (.collected ∈ events ↔ limit.toNat < machine.heap.bytes.toNat + roundedUp size ∨
        ∃ whole, whole.toNat = roundedUp size ∧ .refused whole ∈ events) ∧
      (∀ address after, Run.allocate size machine = .ok address after → after.heap.bytes.toNat ≤ limit.toNat ∨
        .collected ∈ events ∧ after.heap.bytes.toNat = machine.heap.keptBytes machine.roots + roundedUp size) ∧
      ∀ problem after, Run.allocate size machine = .error problem after → problem = .outOfMemory (roundedUp size) ∧
        (∀ block ∈ after.heap.blocks, block ∈ machine.heap.blocks) ∧
        ∀ block ∈ machine.heap.blocks, machine.heap.Reached machine.roots block → block ∈ after.heap.blocks := by
  have harises := hworked.arises
  obtain ⟨hover, -⟩ | ⟨whole, exceeds, hwhole, -, hexceeds, hending⟩ := Run.allocate_overflow_or_ending harises size
  · omega
  obtain ⟨events, hlog, hevents⟩ := hending.events
  refine ⟨events, hlog, ?_, ?_, ?_⟩
  · rw [hevents, hexceeds]
    refine or_congr_right ⟨fun hrefused => ⟨whole, hwhole, hrefused⟩, ?_⟩
    rintro ⟨other, hother, hrefused⟩
    rwa [← UInt64.toNat_inj.1 (hother.trans hwhole.symm)]
  · intro address after hrun
    rw [hrun] at hending hlog
    cases hending with
    | once hfresh =>
      rw [(Run.survives_defended harises exceeds).arises.toNat_bytes_insert hfresh, Run.bytes_defended harises]
      cases exceeds with
      | true => exact .inr ⟨hevents.2 (.inl rfl), by rw [if_pos rfl, hwhole]⟩
      | false =>
        refine .inl ?_
        rw [hwhole, if_neg Bool.false_ne_true]
        exact Nat.not_lt.1 fun hover => Bool.false_ne_true (hexceeds.2 hover)
    | again hfresh =>
      refine .inr ⟨?_, ?_⟩
      · rw [endState, log_insert, Run.log_cleared, ← List.cons_append] at hlog
        rw [← List.append_cancel_right hlog]
        simp
      · rw [(Run.survives_cleared harises whole exceeds).arises.toNat_bytes_insert hfresh, Run.bytes_cleared harises, hwhole]
  · intro problem after hrun
    rw [hrun] at hending
    cases hending with
    | never =>
      have hcleared := Run.survives_cleared harises whole exceeds
      exact ⟨by rw [hwhole], hcleared.mem, fun block _ hreached => (hcleared.reached block hreached).mem⟩

/-- With one block as large as the budget there is a collection for the next. -/
theorem budget_defended_full : ∃ machine : Machine, machine.Worked ∧ machine.heap.bytes = limit ∧
    .collected ∈ (endState (Run.allocate 1 machine)).heap.log := by
  have hworked : ({ heap := ({} : Heap).insert Allocator.base limit } : Machine).Worked :=
    @Worked.allocated {} _ limit _ (.start rfl) rfl
  obtain ⟨events, hlog, hcollects, -⟩ := @budget_defended _ 1 hworked (by decide)
  refine ⟨_, hworked, rfl, ?_⟩
  rw [hlog]
  exact List.mem_append_left _ (hcollects.2 (.inl (by decide)))

/-- An allocator with room for one block. -/
def single : Allocator where
  place heap size := if heap.blocks.isEmpty then Allocator.upward.place heap size else none
  fresh {heap size address} hbounded hplace := by
    split at hplace
    · exact Allocator.upward.fresh hbounded hplace
    · contradiction

example : (endState (Run.allocate 8 { heap := ({} : Heap).insert Allocator.base 8, allocator := single })).heap.log =
    [.placed (Allocator.base + 24) 8, .collected, .refused 8, .placed Allocator.base 8] := by decide +kernel

/-! ### Requests of any size -/

/-- Sizes are rounded and held against the budget as they should be, as long as the bytes and the rounded size are less than a
word together. An allocation then gives a block of at least the size, or there is no memory. Otherwise it is an overflow that
ends it. -/
theorem requests_exact_below_overflow (hworked : machine.Worked) (size : UInt64) :
    IsLeast {count | 8 ∣ count ∧ max size.toNat 1 ≤ count} (roundedUp size) ∧
    (∀ whole, rounded size = some whole ↔ whole.toNat = roundedUp size) ∧
    (rounded size = none ↔ 2 ^ 64 - 8 < size.toNat) ∧
    (∀ whole exceeds, machine.heap.wouldExceed whole = some exceeds ↔
      machine.heap.bytes.toNat + whole.toNat < 2 ^ 64 ∧
        (exceeds = true ↔ limit.toNat < machine.heap.bytes.toNat + whole.toNat)) ∧
    if machine.heap.bytes.toNat + roundedUp size < 2 ^ 64 then
      (∃ address after, Run.allocate size machine = .ok address after ∧ ∃ block ∈ after.heap.blocks,
          block.address = address ∧ block.size.toNat = roundedUp size ∧ size.toNat ≤ block.size.toNat) ∨
        ∃ after, Run.allocate size machine = .error (.outOfMemory (roundedUp size)) after
    else Run.allocate size machine = .error .overflow machine := by
  have hsize := size.toNat_lt
  have hleast : max size.toNat 1 ≤ roundedUp size := by
    rw [roundedUp]
    omega
  refine ⟨⟨⟨Nat.dvd_mul_left .., hleast⟩, ?_⟩, fun _ => rounded_eq_some_iff, ?_, fun _ _ => wouldExceed_eq_some_iff, ?_⟩
  · rintro count ⟨⟨words, hwords⟩, hcount⟩
    rw [roundedUp]
    omega
  · rw [rounded_eq_none_iff, roundedUp]
    omega
  · rcases Run.allocate_overflow_or_ending hworked.arises size with ⟨hover, herror⟩ | ⟨whole, exceeds, hwhole, hroom, -, hending⟩
    · rw [if_neg (Nat.not_lt.2 hover)]
      exact herror
    · rw [if_pos hroom]
      generalize Run.allocate size machine = result at hending ⊢
      have hgiven : size.toNat ≤ whole.toNat := hwhole ▸ Nat.le_trans (Nat.le_max_left ..) hleast
      cases hending with
      | once => exact .inl ⟨_, _, rfl, _, Array.mem_push_self, rfl, hwhole, hgiven⟩
      | again => exact .inl ⟨_, _, rfl, _, Array.mem_push_self, rfl, hwhole, hgiven⟩
      | never => exact .inr ⟨_, by rw [hwhole]⟩

theorem requests_exact_below_overflow_one : (∃ address after, Run.allocate 1 {} = .ok address after) ∨
    ∃ after, Run.allocate 1 {} = .error (.outOfMemory 8) after := by
  obtain ⟨-, -, -, -, hends⟩ := @requests_exact_below_overflow {} (.start rfl) 1
  rw [if_pos (by decide)] at hends
  rcases hends with ⟨address, after, hok, -⟩ | hrefused
  · exact .inl ⟨address, after, hok⟩
  · exact .inr hrefused

/-- The largest size is an overflow, though there are no blocks, and so is a smaller one if there is a block. -/
theorem request_overflows : Run.allocate 0xffffffffffffffff {} = .error .overflow {} ∧
    ∃ machine : Machine, machine.Worked ∧ machine.heap.bytes = 8 ∧
      Run.allocate 0xfffffffffffffff8 machine = .error .overflow machine :=
  ⟨rfl, _, @Worked.allocated {} _ 8 _ (.start rfl) rfl, rfl, rfl⟩

end Machine

end NanScript
