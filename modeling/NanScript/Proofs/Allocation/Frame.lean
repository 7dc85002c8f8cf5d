import Mathlib.Algebra.GroupWithZero.Nat
import Mathlib.Data.List.Perm.Subperm
import Mathlib.Data.List.Permutation
import NanScript.Proofs.Allocation.LinearScan

/-!
# What an allocation costs

A slot of the frame is used only where the pool is exhausted, and the frame is large enough for the slots in use, which lie
below the saved registers. The number of those is known only when the scan is over, but the slots are numbered before it is.

An interval that is still active was placed earlier. So where no register is free, each is held by an interval that was placed
earlier and has not ended.
-/

namespace NanScript

open Placement NanScript.Interval List

variable {r : Register}

namespace Placement

variable {active : List (Interval × Register)} {slots : Nat} {intervals : List Interval}

/-- The registers that were given out, one for each interval that got one. -/
def registers (placed : List (Interval × Placement)) : List Register := placed.filterMap fun (_, placement) => placement.register?

theorem exists_slot {index : Nat} (hindex : slots ≤ index)
    (hcount : index + (registers (scan active slots intervals)).length < slots + (scan active slots intervals).length) :
    ∃ interval, (interval, slot index) ∈ scan active slots intervals := by
  induction intervals generalizing active slots with
  | nil => exact absurd hcount (by simp [scan, registers]; omega)
  | cons first rest ih =>
    rcases scan_cons active slots first rest with ⟨r, -, -, hscan⟩ | ⟨-, hscan⟩
    · rw [hscan] at hcount ⊢
      obtain ⟨interval, hmem⟩ := ih hindex (Nat.lt_of_succ_lt_succ hcount)
      exact ⟨interval, mem_cons_of_mem _ hmem⟩
    · rw [hscan] at hcount ⊢
      rcases Nat.eq_or_lt_of_le hindex with rfl | hlater
      · exact ⟨first, mem_cons_self⟩
      · change _ + (registers (scan (held active first) (slots + 1) rest)).length < _ at hcount
        rw [length_cons, ← Nat.add_assoc, Nat.add_right_comm] at hcount
        obtain ⟨interval, hmem⟩ := ih hlater hcount
        exact ⟨interval, mem_cons_of_mem _ hmem⟩

end Placement

section

variable {intervals : List Interval} {interval : Interval} {offset : Nat}

theorem Interval.sort_perm {permuted : List Interval} (hperm : permuted.Perm intervals)
    (hdistinct : (intervals.map fun interval => (interval.start, interval.var)).Nodup) : sort permuted = sort intervals := by
  refine Perm.eq_of_pairwise ?_ (pairwise_sort permuted) (pairwise_sort intervals)
    ((mergeSort_perm _ _).trans (hperm.trans (mergeSort_perm _ _).symm))
  intro a b ha hb hab hba
  refine inj_on_of_nodup_map hdistinct (hperm.mem_iff.1 (mem_sort.1 ha)) (mem_sort.1 hb) ?_
  exact Prod.ext (by omega) (by omega)

end

end NanScript
