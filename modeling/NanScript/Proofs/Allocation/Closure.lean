import NanScript.Proofs.Allocation.Frame
import NanScript.Proofs.Allocation.Sharing

/-!
# Stretching is a closure

The passes over the loops stretch each interval to the first end that every loop is content with. So neither the order of the
loops nor that of the intervals is of any consequence.
-/

namespace NanScript

namespace Interval

variable {loops : List LoopSpan}

theorem stretch_perm {permuted : List LoopSpan} (hperm : permuted.Perm loops) : stretch permuted = stretch loops := by
  have hcontent (start stop : Nat) : Content permuted start stop ↔ Content loops start stop :=
    forall_congr' fun span => imp_congr_left hperm.mem_iff
  funext interval
  refine congrArg (fun stop => { interval with stop }) (Nat.le_antisymm ?_ ?_)
  · exact reach_le (le_reach _ _ _) ((hcontent _ _).2 (content_reach _ _ _))
  · exact reach_le (le_reach _ _ _) ((hcontent _ _).1 (content_reach _ _ _))

theorem stretch_stretch (loops : List LoopSpan) (interval : Interval) :
    stretch loops (stretch loops interval) = stretch loops interval :=
  congrArg (fun stop => { interval with stop }) (reach_eq (le_reach _ _ _) (Nat.le_refl _))

end Interval

/-- Passing over intervals comes to an end. It changes nothing but the ends: each becomes the least one, not before the old,
that every loop is content with. So the order of the loops does not matter, nor does an interval depend on the others, and once
more changes nothing. The intervals of a function are the same in whatever order they are listed. -/
theorem stretching_is_least_closure (loops : List LoopSpan) (intervals : List Interval) :
    Interval.settle loops intervals = intervals.map (Interval.stretch loops) ∧
      (∀ interval : Interval, (interval.stretch loops).var = interval.var ∧
        (interval.stretch loops).start = interval.start ∧ interval.stop ≤ (interval.stretch loops).stop ∧
        Interval.Content loops interval.start (interval.stretch loops).stop ∧
        ∀ stop, interval.stop ≤ stop → Interval.Content loops interval.start stop → (interval.stretch loops).stop ≤ stop) ∧
      (∀ permuted : List LoopSpan, permuted.Perm loops → Interval.settle permuted intervals = Interval.settle loops intervals) ∧
      Interval.settle loops (Interval.settle loops intervals) = Interval.settle loops intervals ∧
      ∀ (parameters : List Tree) (body : Tree) (listed : List Interval),
        listed.Perm (functionWalk parameters body).intervals →
          Interval.sort (Interval.settle (functionWalk parameters body).loops listed) = liveIntervals parameters body := by
  refine ⟨Interval.settle_eq loops intervals, fun interval => ?_, fun permuted hperm => ?_, ?_, fun parameters body listed hperm => ?_⟩
  · exact ⟨rfl, rfl, Interval.le_reach _ _ _, Interval.content_reach _ _ _, fun _ => Interval.reach_le⟩
  · rw [Interval.settle_eq, Interval.settle_eq, Interval.stretch_perm hperm]
  · rw [Interval.settle_eq, Interval.settle_eq, List.map_map]
    exact List.map_congr_left fun interval _ => Interval.stretch_stretch loops interval
  · have hlive : liveIntervals parameters body = Interval.sort ((functionWalk parameters body).intervals.map (Interval.stretch _)) :=
      congrArg Interval.sort (Interval.settle_eq _ _)
    rw [Interval.settle_eq, hlive]
    refine Interval.sort_perm (hperm.map _) (List.Nodup.of_map Prod.snd ?_)
    rw [List.map_map, List.map_map]
    exact nodup_functionWalk parameters body

end NanScript
