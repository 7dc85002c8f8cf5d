import NanScript.Interval.Liveness

/-!
# Intervals that grow

A walk only ever widens the intervals it has, so a number that was recorded for a variable stays inside of the interval of
that variable. There is one interval for each variable. Passing over the loops until nothing moves makes an interval end where
every loop that it enters from before is content with it, and there first: no pass moves an end beyond that.
-/

namespace NanScript.Interval

open List

/-- Every old interval lies inside of a new one of the same variable. -/
def Widens (old new : List Interval) : Prop :=
  ∀ interval ∈ old, ∃ wider ∈ new, wider.var = interval.var ∧ wider.start ≤ interval.start ∧ interval.stop ≤ wider.stop

/-- The interval of a variable holds a number. -/
def Covers (intervals : List Interval) (var index : Nat) : Prop :=
  ∃ interval ∈ intervals, interval.var = var ∧ interval.start ≤ index ∧ index ≤ interval.stop

theorem Widens.refl (intervals : List Interval) : Widens intervals intervals := by
  intro interval hinterval
  exact ⟨interval, hinterval, rfl, Nat.le_refl _, Nat.le_refl _⟩

theorem Widens.trans {first second third : List Interval} (h : Widens first second) (h' : Widens second third) :
    Widens first third := by
  intro interval hinterval
  obtain ⟨wider, hwider, hvar, hstart, hstop⟩ := h interval hinterval
  obtain ⟨widest, hwidest, hvar', hstart', hstop'⟩ := h' wider hwider
  exact ⟨widest, hwidest, hvar'.trans hvar, Nat.le_trans hstart' hstart, Nat.le_trans hstop hstop'⟩

theorem Widens.covers {old new : List Interval} (h : Widens old new) {var index : Nat} (hcovers : Covers old var index) :
    Covers new var index := by
  obtain ⟨interval, hinterval, rfl, hstart, hstop⟩ := hcovers
  obtain ⟨wider, hwider, hvar, hstart', hstop'⟩ := h interval hinterval
  exact ⟨wider, hwider, hvar, Nat.le_trans hstart' hstart, Nat.le_trans hstop hstop'⟩

/-! ### Recording -/

theorem covers_record (var index : Nat) (intervals : List Interval) : Covers (record var index intervals) var index := by
  induction intervals with
  | nil => exact ⟨⟨var, index, index⟩, by simp [record], rfl, Nat.le_refl _, Nat.le_refl _⟩
  | cons interval rest ih =>
    unfold record
    by_cases hvar : interval.var = var
    · rw [if_pos hvar]
      refine ⟨_, mem_cons_self, hvar, ?_, ?_⟩
      · exact Nat.min_le_right _ _
      · exact Nat.le_max_right _ _
    · rw [if_neg hvar]
      obtain ⟨found, hfound, hrest⟩ := ih
      exact ⟨found, mem_cons_of_mem _ hfound, hrest⟩

theorem widens_record (var index : Nat) (intervals : List Interval) : Widens intervals (record var index intervals) := by
  induction intervals with
  | nil =>
    intro interval hinterval
    contradiction
  | cons first rest ih =>
    intro interval hinterval
    unfold record
    by_cases hvar : first.var = var
    · rw [if_pos hvar]
      rcases mem_cons.1 hinterval with rfl | hinterval
      · refine ⟨_, mem_cons_self, rfl, ?_, ?_⟩
        · exact Nat.min_le_left _ _
        · exact Nat.le_max_left _ _
      · exact ⟨interval, mem_cons_of_mem _ hinterval, rfl, Nat.le_refl _, Nat.le_refl _⟩
    · rw [if_neg hvar]
      rcases mem_cons.1 hinterval with rfl | hinterval
      · exact ⟨interval, mem_cons_self, rfl, Nat.le_refl _, Nat.le_refl _⟩
      · obtain ⟨wider, hwider, hrest⟩ := ih interval hinterval
        exact ⟨wider, mem_cons_of_mem _ hwider, hrest⟩

variable {intervals : List Interval}

theorem mem_vars_record {var index other : Nat} :
    other ∈ (record var index intervals).map (·.var) ↔ other = var ∨ other ∈ intervals.map (·.var) := by
  induction intervals with
  | nil => simp [record]
  | cons first rest ih =>
    unfold record
    by_cases hvar : first.var = var
    · rw [if_pos hvar]
      simp only [map_cons, mem_cons, hvar]
      constructor
      · exact Or.inr
      · intro hmem
        rcases hmem with rfl | hmem
        · exact .inl rfl
        · exact hmem
    · rw [if_neg hvar]
      simp only [map_cons, mem_cons, ih]
      exact or_left_comm

theorem nodup_record (var index : Nat) (hnodup : (intervals.map (·.var)).Nodup) :
    ((record var index intervals).map (·.var)).Nodup := by
  induction intervals with
  | nil => simp [record]
  | cons first rest ih =>
    obtain ⟨hfirst, hrest⟩ := nodup_cons.1 hnodup
    unfold record
    by_cases hvar : first.var = var
    · rw [if_pos hvar]
      exact nodup_cons.2 ⟨hfirst, hrest⟩
    · rw [if_neg hvar]
      refine nodup_cons.2 ⟨?_, ih hrest⟩
      intro hmem
      rcases mem_vars_record.1 hmem with hsame | hmem
      · exact hvar hsame
      · exact hfirst hmem

/-! ### Stretching -/

variable {loops : List LoopSpan} {interval : Interval} {start stop : Nat}

/-- The end that every loop is content with. -/
def reach (loops : List LoopSpan) (start stop : Nat) : Nat :=
  match _hfound : loops.find? (endsInside start stop) with
  | some span => reach loops start span.stop
  | none => stop
termination_by ahead loops stop
decreasing_by
  have hinside := find?_some _hfound
  simp only [endsInside, Bool.and_eq_true, decide_eq_true_eq] at hinside
  exact ahead_lt (mem_of_find?_eq_some _hfound) hinside.2

def stretch (loops : List LoopSpan) (interval : Interval) : Interval :=
  { interval with stop := reach loops interval.start interval.stop }

theorem le_reach (loops : List LoopSpan) (start stop : Nat) : stop ≤ reach loops start stop := by
  fun_induction reach loops start stop with
  | case1 stop span hfound ih =>
    have hinside := find?_some hfound
    simp only [endsInside, Bool.and_eq_true, decide_eq_true_eq] at hinside
    exact Nat.le_trans (Nat.le_of_lt hinside.2) ih
  | case2 stop hnone => exact Nat.le_refl _

theorem le_reach_of_mem {loops : List LoopSpan} {start stop : Nat} {span : LoopSpan} (hspan : span ∈ loops)
    (hbefore : start < span.start) (hends : span.start ≤ reach loops start stop) : span.stop ≤ reach loops start stop := by
  fun_induction reach loops start stop with
  | case1 stop other hfound ih => exact ih hends
  | case2 stop hnone =>
    have hcontent := find?_eq_none.1 hnone span hspan
    simp only [endsInside, Bool.and_eq_true, decide_eq_true_eq, not_and] at hcontent
    exact Nat.le_of_not_lt (hcontent ⟨hbefore, hends⟩)

/-- Every loop is content with an interval. -/
def Content (loops : List LoopSpan) (start stop : Nat) : Prop :=
  ∀ span ∈ loops, ¬(start < span.start ∧ span.start ≤ stop ∧ stop < span.stop)

theorem endsInside_iff {span : LoopSpan} :
    endsInside start stop span = true ↔ start < span.start ∧ span.start ≤ stop ∧ stop < span.stop := by
  simp [endsInside, and_assoc]

theorem content_reach (loops : List LoopSpan) (start stop : Nat) : Content loops start (reach loops start stop) := by
  rintro span hspan ⟨hbefore, hends, hopen⟩
  exact absurd (le_reach_of_mem hspan hbefore hends) (Nat.not_le.2 hopen)

theorem reach_le {bound : Nat} (hstop : stop ≤ bound) (hcontent : Content loops start bound) :
    reach loops start stop ≤ bound := by
  fun_induction reach loops start stop with
  | case1 stop span hfound ih =>
    obtain ⟨hbefore, hends, -⟩ := endsInside_iff.1 (List.find?_some hfound)
    refine ih (Nat.le_of_not_lt fun hopen => ?_)
    exact hcontent span (List.mem_of_find?_eq_some hfound) ⟨hbefore, Nat.le_trans hends hstop, hopen⟩
  | case2 stop hnone => exact hstop

/-- An end on the way to the closure has the same closure. -/
theorem reach_eq {between : Nat} (hlow : stop ≤ between) (hhigh : between ≤ reach loops start stop) :
    reach loops start between = reach loops start stop := by
  refine Nat.le_antisymm (reach_le hhigh (content_reach _ _ _)) (reach_le ?_ (content_reach _ _ _))
  exact Nat.le_trans hlow (le_reach _ _ _)

theorem le_look (interval : Interval) (span : LoopSpan) : interval.stop ≤ (look interval span).stop := by
  rcases look_cases interval span with hsame | ⟨hinside, hmoved⟩
  · exact Nat.le_of_eq (congrArg Interval.stop hsame).symm
  · rw [hmoved]
    exact Nat.le_of_lt (endsInside_iff.1 hinside).2.2

theorem stretch_look {span : LoopSpan} (hspan : span ∈ loops) (interval : Interval) :
    stretch loops (look interval span) = stretch loops interval := by
  rcases look_cases interval span with hsame | ⟨hinside, hmoved⟩
  · rw [hsame]
  · obtain ⟨hbefore, hends, hopen⟩ := endsInside_iff.1 hinside
    rw [hmoved]
    refine congrArg (fun stop => { interval with stop }) (reach_eq (Nat.le_of_lt hopen) ?_)
    exact le_reach_of_mem hspan hbefore (Nat.le_trans hends (le_reach _ _ _))

theorem stretch_pass : stretch loops (pass loops interval) = stretch loops interval :=
  List.foldlRecOn (motive := fun moved => stretch loops moved = stretch loops interval) loops look rfl
    fun moved hmoved _ hspan => (stretch_look hspan moved).trans hmoved

theorem le_pass : interval.stop ≤ (pass loops interval).stop :=
  List.foldlRecOn (motive := fun moved => interval.stop ≤ moved.stop) loops look (Nat.le_refl _)
    fun moved hmoved span _ => Nat.le_trans hmoved (le_look moved span)

/-- A pass that moves nothing has found every loop content. -/
theorem content_of_pass (hpass : (pass loops interval).stop ≤ interval.stop) :
    Content loops interval.start interval.stop ∧ pass loops interval = interval := by
  induction loops with
  | nil => exact ⟨nofun, rfl⟩
  | cons span rest ih =>
    have hlook : (look interval span).stop ≤ interval.stop := Nat.le_trans le_pass hpass
    rcases look_cases interval span with hsame | ⟨hinside, hmoved⟩
    · have hpassed : pass (span :: rest) interval = pass rest interval := congrArg (pass rest) hsame
      rw [hpassed] at hpass ⊢
      refine ⟨List.forall_mem_cons.2 ⟨fun hinside => ?_, (ih hpass).1⟩, (ih hpass).2⟩
      have hmoved : look interval span = { interval with stop := span.stop } := if_pos (endsInside_iff.2 hinside)
      have hstop : interval.stop = span.stop := congrArg Interval.stop (hsame.symm.trans hmoved)
      exact Nat.ne_of_lt hinside.2.2 hstop
    · rw [hmoved] at hlook
      exact absurd (endsInside_iff.1 hinside).2.2 (Nat.not_lt.2 hlook)

theorem settle_eq (loops : List LoopSpan) (intervals : List Interval) :
    settle loops intervals = intervals.map (stretch loops) := by
  fun_induction settle loops intervals with
  | case1 intervals hsame =>
    refine Eq.symm ((List.map_congr_left fun interval hinterval => ?_).trans (List.map_id _))
    have hpass : pass loops interval = interval := List.map_inj_left.1 (hsame.trans (List.map_id _).symm) interval hinterval
    have hcontent := (content_of_pass (Nat.le_of_eq (congrArg Interval.stop hpass))).1
    have hstop := Nat.le_antisymm (reach_le (Nat.le_refl _) hcontent) (le_reach _ _ _)
    exact congrArg (fun stop => { interval with stop }) hstop
  | case2 intervals hmoves ih =>
    rw [ih, passAll, List.map_map]
    exact List.map_congr_left fun interval _ => stretch_pass

theorem mem_sort {interval : Interval} : interval ∈ sort intervals ↔ interval ∈ intervals :=
  mem_mergeSort

theorem before_iff {a b : Interval} : before a b = true ↔ a.start < b.start ∨ a.start = b.start ∧ a.var ≤ b.var := by
  simp [before]

theorem pairwise_sort (intervals : List Interval) :
    (sort intervals).Pairwise fun a b => a.start < b.start ∨ a.start = b.start ∧ a.var ≤ b.var := by
  refine (pairwise_mergeSort (fun a b c hab hbc => ?_) (fun a b => ?_) intervals).imp before_iff.1
  · rw [before_iff] at hab hbc ⊢
    omega
  · rw [Bool.or_eq_true, before_iff, before_iff]
    omega

theorem sorted_sort (intervals : List Interval) : (sort intervals).Pairwise fun a b => a.start ≤ b.start :=
  (pairwise_sort intervals).imp fun hbefore => by omega

theorem nodup_vars_sort (hnodup : (intervals.map (·.var)).Nodup) : ((sort intervals).map (·.var)).Nodup :=
  (((mergeSort_perm intervals before).map (·.var)).nodup_iff).2 hnodup

end NanScript.Interval
