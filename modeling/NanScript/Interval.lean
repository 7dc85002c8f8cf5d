/-!
# Live intervals

The nodes of a function body are numbered in the order of a walk, and a local variable occupies its location from the
first to the last number at which it is declared, read or written. A loop runs its numbers again, so an interval that
enters a loop from before it and ends inside it is stretched to the loop's last number. Stretching may let the
interval end inside a loop that encloses the first, so it goes on until no loop asks for more.
-/

namespace NanScript

/-- The numbers from `start` to `stop`, both included, through which a variable keeps its location. -/
structure Interval where
  var : Nat
  start : Nat
  stop : Nat
  deriving DecidableEq, Repr, Inhabited

/-- The numbers of a loop, from its own to the last one inside. -/
structure LoopSpan where
  start : Nat
  stop : Nat
  deriving DecidableEq, Repr, Inhabited

namespace Interval

/-- By start, and by variable among those that start together. -/
def before (a b : Interval) : Bool := a.start < b.start || (a.start == b.start && a.var ≤ b.var)

def sort (intervals : List Interval) : List Interval := intervals.mergeSort before

/-- Widen the interval of `var` to `index`; the first use makes the interval. -/
def record (var index : Nat) : List Interval → List Interval
  | [] => [⟨var, index, index⟩]
  | interval :: rest =>
    if interval.var = var then
      { interval with start := min interval.start index, stop := max interval.stop index } :: rest
    else interval :: record var index rest

/-! ### Loops -/

/-- Whether an interval from `start` to `stop` enters the loop from before it and ends inside. -/
def endsInside (start stop : Nat) (span : LoopSpan) : Bool :=
  start < span.start && span.start ≤ stop && stop < span.stop

/-- Move the end of an interval to the end of a loop that it enters from before and does not leave. -/
def look (interval : Interval) (span : LoopSpan) : Interval :=
  if endsInside interval.start interval.stop span then { interval with stop := span.stop } else interval

def pass (loops : List LoopSpan) (interval : Interval) : Interval := loops.foldl look interval

def passAll (loops : List LoopSpan) (intervals : List Interval) : List Interval := intervals.map (pass loops)

/-! A pass that moves an interval leaves fewer loops that end behind it. -/

def ahead (loops : List LoopSpan) (stop : Nat) : Nat := (loops.filter (stop < ·.stop)).length

def missing (loops : List LoopSpan) : List Interval → Nat
  | [] => 0
  | interval :: rest => ahead loops interval.stop + missing loops rest

theorem ahead_lt {loops : List LoopSpan} {span : LoopSpan} {stop : Nat} (hspan : span ∈ loops) (hopen : stop < span.stop) :
    ahead loops span.stop < ahead loops stop := by
  have hfewer : loops.filter (span.stop < ·.stop) = (loops.filter (stop < ·.stop)).filter (span.stop < ·.stop) := by
    rw [List.filter_filter]
    apply List.filter_congr
    intro other _
    rw [Bool.eq_iff_iff]
    simp only [Bool.and_eq_true, decide_eq_true_eq]
    omega
  rw [ahead, hfewer]
  apply List.length_filter_lt_length_iff_exists.2
  exact ⟨span, List.mem_filter.2 ⟨hspan, by simp [hopen]⟩, by simp⟩

theorem look_cases (interval : Interval) (span : LoopSpan) : look interval span = interval ∨
      (endsInside interval.start interval.stop span = true ∧ look interval span = { interval with stop := span.stop }) := by
  unfold look
  split
  · exact .inr ⟨‹_›, rfl⟩
  · exact .inl rfl

theorem pass_cases {loops part : List LoopSpan} (hpart : ∀ span ∈ part, span ∈ loops) (interval : Interval) :
    pass part interval = interval ∨ ahead loops (pass part interval).stop < ahead loops interval.stop := by
  induction part generalizing interval with
  | nil => exact .inl rfl
  | cons span rest ih =>
    have hrest := ih (fun other hother => hpart other (List.mem_cons_of_mem _ hother)) (look interval span)
    rw [pass, List.foldl_cons, ← pass]
    rcases look_cases interval span with hsame | ⟨hinside, hmoved⟩
    · rwa [hsame] at hrest ⊢
    · have hfewer : ahead loops (look interval span).stop < ahead loops interval.stop := by
        rw [hmoved]
        simp only [endsInside, Bool.and_eq_true, decide_eq_true_eq] at hinside
        exact ahead_lt (hpart span List.mem_cons_self) hinside.2
      rcases hrest with hstays | hless
      · rw [hstays]
        exact .inr hfewer
      · exact .inr (Nat.lt_trans hless hfewer)

theorem missing_passAll {loops : List LoopSpan} (intervals : List Interval) :
    passAll loops intervals = intervals ∨ missing loops (passAll loops intervals) < missing loops intervals := by
  induction intervals with
  | nil => exact .inl rfl
  | cons interval rest ih =>
    rcases pass_cases (fun _ => id) interval with hsame | hless
    · rcases ih with hrest | hrest
      · exact .inl (List.cons_eq_cons.2 ⟨hsame, hrest⟩)
      · exact .inr (Nat.add_lt_add_of_le_of_lt (Nat.le_of_eq (congrArg (ahead loops ·.stop) hsame)) hrest)
    · have hrest : missing loops (passAll loops rest) ≤ missing loops rest := by
        rcases ih with hrest | hrest
        · exact Nat.le_of_eq (congrArg (missing loops) hrest)
        · exact Nat.le_of_lt hrest
      exact .inr (Nat.add_lt_add_of_lt_of_le hless hrest)

/-- All intervals, passed over until a pass moves none of them. -/
def settle (loops : List LoopSpan) (intervals : List Interval) : List Interval :=
  if passAll loops intervals = intervals then intervals else settle loops (passAll loops intervals)
termination_by missing loops intervals
decreasing_by exact (missing_passAll intervals).resolve_left ‹_›

end Interval

end NanScript
