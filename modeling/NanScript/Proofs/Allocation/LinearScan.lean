import Mathlib.Data.List.Nodup
import NanScript.Location
import NanScript.Proofs.Allocation.Interval

/-!
# Overlapping intervals have different locations

The flags say of each register of the pool whether an active interval holds it: no register is held twice, so the flag
that an expired interval sets is not one that another still needs. That makes the scan one without flags (`scan`).

When an interval is placed, every interval that was placed before it and has not ended still holds its register: the
starts only grow, so nothing that has not ended now had ended earlier. Slots are never given out twice.
-/

namespace NanScript

open Placement List

namespace Placement

/-- The registers that are not free when an interval begins. -/
def held (active : List (Interval × Register)) (interval : Interval) : List (Interval × Register) :=
  active.filter fun entry => interval.start ≤ entry.1.stop

variable {active : List (Interval × Register)} {interval : Interval}

theorem mem_held {entry : Interval × Register} :
    entry ∈ held active interval ↔ entry ∈ active ∧ interval.start ≤ entry.1.stop := by
  unfold held
  rw [mem_filter, decide_eq_true_eq]

def unheld (active : List (Interval × Register)) (r : Register) : Bool := (active.map Prod.snd).all (· != r)

/-- Placement without flags: a register is free if no active interval holds it. -/
def scan (active : List (Interval × Register)) (slots : Nat) : List Interval → List (Interval × Placement)
  | [] => []
  | interval :: rest =>
    match Register.pool.find? (unheld (held active interval)) with
    | some r => (interval, register r) :: scan ((interval, r) :: held active interval) slots rest
    | none => (interval, slot slots) :: scan (held active interval) (slots + 1) rest

/-! ### The flags -/

/-- One flag for each register of the pool. -/
def flags (unheld : Register → Bool) : Array Bool := (Register.pool.map unheld).toArray

theorem nodup_pool : Register.pool.Nodup := by decide

theorem set_flags (unheld : Register → Bool) {r : Register} (hr : r ∈ Register.pool) (flag : Bool) :
    (flags unheld).setIfInBounds (Register.pool.idxOf r) flag = flags (Function.update unheld r flag) := by
  unfold flags
  rw [nodup_pool.map_update, if_pos hr, setIfInBounds_toArray]

theorem release_flags (unheld : Register → Bool) {registers : List Register} (hpool : ∀ r ∈ registers, r ∈ Register.pool) :
    release (flags unheld) registers = flags fun r => unheld r || registers.contains r := by
  induction registers generalizing unheld with
  | nil => simp [release]
  | cons first rest ih =>
    obtain ⟨hfirst, hrest⟩ := forall_mem_cons.1 hpool
    change release ((flags unheld).setIfInBounds _ true) rest = _
    rw [set_flags unheld hfirst, ih _ hrest]
    congr 1
    funext r
    by_cases hr : r = first <;> simp [hr]

/-- The first flag that is set is that of the first register nobody holds. -/
theorem findIdx?_flags (unheld : Register → Bool) :
    ((flags unheld).findIdx? id).map (Register.pool.getD · default) = Register.pool.find? unheld := by
  unfold flags
  rw [findIdx?_toArray, findIdx?_map, Function.id_comp]
  induction Register.pool with
  | nil => rfl
  | cons first rest ih =>
    rw [findIdx?_cons, find?_cons]
    cases unheld first with
    | true => rfl
    | false => simpa [Option.map_map, Function.comp_def] using ih

theorem idxOf_getD_pool {position : Nat} (hposition : position < Register.pool.length) :
    Register.pool.idxOf (Register.pool.getD position default) = position := by
  rw [getD_eq_getElem?_getD, getElem?_eq_getElem hposition, Option.getD_some]
  exact nodup_pool.idxOf_getElem position hposition

theorem unheld_eq_true_iff {r : Register} : unheld active r = true ↔ r ∉ active.map Prod.snd := by
  simp only [unheld, all_eq_true, bne_iff_ne, ne_eq]
  exact ⟨fun hall hr => hall r hr rfl, fun hr other hother hsame => hr (hsame ▸ hother)⟩

/-- The registers of expired intervals are free, as nobody else holds them. -/
theorem unheld_held (hnodup : (active.map Prod.snd).Nodup) (r : Register) : unheld (held active interval) r =
    (unheld active r || ((active.filter fun entry => !decide (interval.start ≤ entry.1.stop)).map Prod.snd).contains r) := by
  rw [Bool.eq_iff_iff, Bool.or_eq_true, unheld_eq_true_iff, unheld_eq_true_iff, contains_iff_mem]
  constructor
  · intro hfree
    by_cases hactive : r ∈ active.map Prod.snd
    · obtain ⟨entry, hentry, rfl⟩ := mem_map.1 hactive
      refine .inr (mem_map_of_mem (mem_filter.2 ⟨hentry, ?_⟩))
      have hended : entry ∉ held active interval := fun hheld => hfree (mem_map_of_mem hheld)
      simpa [mem_held, hentry] using hended
    · exact .inl hactive
  · rintro (hfree | hexpired) hheld
    · exact hfree ((filter_sublist.map Prod.snd).subset hheld)
    · obtain ⟨entry, hentry, rfl⟩ := mem_map.1 hexpired
      obtain ⟨other, hother, hsame⟩ := mem_map.1 hheld
      obtain ⟨hentry, hended⟩ := mem_filter.1 hentry
      obtain ⟨hother, hlater⟩ := mem_held.1 hother
      rw [inj_on_of_nodup_map hnodup hother hentry hsame] at hlater
      simp [hlater] at hended

theorem assign_eq_scan (hnodup : (active.map Prod.snd).Nodup) (hpool : ∀ r ∈ active.map Prod.snd, r ∈ Register.pool)
    (slots : Nat) (intervals : List Interval) :
    assign active (flags (unheld active)) slots intervals = scan active slots intervals := by
  induction intervals generalizing active slots with
  | nil => rfl
  | cons interval rest ih =>
    have hsub : ((held active interval).map Prod.snd).Sublist (active.map Prod.snd) := filter_sublist.map Prod.snd
    have hflags : release (flags (unheld active))
        ((active.filter fun entry => !decide (interval.start ≤ entry.1.stop)).map Prod.snd) = flags (unheld (held active interval)) := by
      rw [release_flags _ fun r hr => hpool r ((filter_sublist.map Prod.snd).subset hr), funext (unheld_held hnodup)]
    have hfind := findIdx?_flags (unheld (held active interval))
    rw [assign, partition_eq_filter_filter]
    simp only [Function.comp_def, hflags]
    rw [scan]
    cases hposition : (flags (unheld (held active interval))).findIdx? id with
    | none =>
      rw [hposition, Option.map_none] at hfind
      rw [← hfind]
      exact congrArg _ (ih (hnodup.sublist hsub) (fun r hr => hpool r (hsub.subset hr)) _)
    | some position =>
      rw [hposition, Option.map_some] at hfind
      rw [← hfind]
      set r := Register.pool.getD position default with hr
      have hmem : r ∈ Register.pool := mem_of_find?_eq_some hfind.symm
      have hunheld : r ∉ (held active interval).map Prod.snd := unheld_eq_true_iff.1 (find?_some hfind.symm)
      have hlength : position < Register.pool.length := by
        simpa [flags] using (Array.findIdx?_eq_some_iff_getElem.1 hposition).1
      have htaken : (flags (unheld (held active interval))).setIfInBounds position false =
          flags (unheld ((interval, r) :: held active interval)) := by
        rw [← idxOf_getD_pool hlength, ← hr, set_flags _ hmem]
        congr 1
        funext other
        by_cases hother : other = r
        · simp [hother, unheld]
        · simp [hother, unheld, Ne.symm hother]
      simp only [htaken]
      refine congrArg _ (ih ?_ ?_ _)
      · exact nodup_cons.2 ⟨hunheld, hnodup.sublist hsub⟩
      · exact forall_mem_cons.2 ⟨hmem, fun r hr => hpool r (hsub.subset hr)⟩

/-! ### One interval -/

/-- What placing one interval can come to: it gets a register of the pool that nobody holds, or all of them are held. -/
theorem scan_cons (active : List (Interval × Register)) (slots : Nat) (interval : Interval) (rest : List Interval) :
    (∃ r ∈ Register.pool, (∀ entry ∈ held active interval, entry.2 ≠ r) ∧ scan active slots (interval :: rest) =
        (interval, register r) :: scan ((interval, r) :: held active interval) slots rest) ∨
      (∀ r ∈ Register.pool, ∃ entry ∈ held active interval, entry.2 = r) ∧
        scan active slots (interval :: rest) = (interval, slot slots) :: scan (held active interval) (slots + 1) rest := by
  rw [scan]
  cases hfree : Register.pool.find? (unheld (held active interval)) with
  | some r =>
    have hunheld := unheld_eq_true_iff.1 (find?_some hfree)
    exact .inl ⟨r, mem_of_find?_eq_some hfree, fun entry hentry hsame => hunheld (hsame ▸ mem_map_of_mem hentry), rfl⟩
  | none => exact .inr ⟨by simpa [unheld] using find?_eq_none.1 hfree, rfl⟩

theorem map_fst_scan (active : List (Interval × Register)) (slots : Nat) (intervals : List Interval) :
    (scan active slots intervals).map Prod.fst = intervals := by
  induction intervals generalizing active slots with
  | nil => rfl
  | cons interval rest ih =>
    rcases scan_cons active slots interval rest with ⟨r, -, -, hassign⟩ | ⟨-, hassign⟩
    · rw [hassign, map_cons, ih]
    · rw [hassign, map_cons, ih]

variable {slots : Nat} {intervals : List Interval}

theorem mem_of_mem_scan {place : Placement} (hmem : (interval, place) ∈ scan active slots intervals) :
    interval ∈ intervals := by
  rw [← map_fst_scan active slots intervals]
  exact mem_map_of_mem hmem

theorem mem_pool_of_mem_scan {r : Register} (hmem : (interval, register r) ∈ scan active slots intervals) :
    r ∈ Register.pool := by
  induction intervals generalizing active slots with
  | nil => contradiction
  | cons first rest ih =>
    rcases scan_cons active slots first rest with ⟨taken, hpool, -, hassign⟩ | ⟨-, hassign⟩
    · rw [hassign] at hmem
      rcases mem_cons.1 hmem with hsame | hmem
      · obtain ⟨-, ⟨⟩⟩ := Prod.mk.inj hsame
        exact hpool
      · exact ih hmem
    · rw [hassign] at hmem
      rcases mem_cons.1 hmem with hsame | hmem
      · cases hsame
      · exact ih hmem

theorem ne_of_mem_scan (hsorted : intervals.Pairwise fun a b => a.start ≤ b.start) {later other : Interval}
    {r taken : Register} (hlater : (later, register r) ∈ scan active slots intervals)
    (hactive : (other, taken) ∈ active) (hends : later.start ≤ other.stop) : taken ≠ r := by
  induction intervals generalizing active slots with
  | nil => simp [scan] at hlater
  | cons interval rest ih =>
    obtain ⟨hfirst, hrest⟩ := pairwise_cons.1 hsorted
    have hheld : interval.start ≤ later.start → (other, taken) ∈ held active interval := by
      intro hstart
      exact mem_held.2 ⟨hactive, Nat.le_trans hstart hends⟩
    rcases scan_cons active slots interval rest with ⟨free, -, hfree, hassign⟩ | ⟨-, hassign⟩
    · rw [hassign] at hlater
      rcases mem_cons.1 hlater with hsame | hlater
      · simp only [Prod.mk.injEq, register.injEq] at hsame
        obtain ⟨rfl, rfl⟩ := hsame
        exact hfree _ (hheld (Nat.le_refl _))
      · have hstart := hfirst later (mem_of_mem_scan hlater)
        exact ih hrest hlater (mem_cons_of_mem _ (hheld hstart))
    · rw [hassign] at hlater
      rcases mem_cons.1 hlater with hsame | hlater
      · simp at hsame
      · have hstart := hfirst later (mem_of_mem_scan hlater)
        exact ih hrest hlater (hheld hstart)

theorem le_of_mem_scan {index : Nat} (hmem : (interval, slot index) ∈ scan active slots intervals) :
    slots ≤ index := by
  induction intervals generalizing active slots with
  | nil => simp [scan] at hmem
  | cons first rest ih =>
    rcases scan_cons active slots first rest with ⟨r, -, -, hassign⟩ | ⟨-, hassign⟩
    · rw [hassign] at hmem
      rcases mem_cons.1 hmem with hsame | hmem
      · simp at hsame
      · exact ih hmem
    · rw [hassign] at hmem
      rcases mem_cons.1 hmem with hsame | hmem
      · simp only [Prod.mk.injEq, slot.injEq] at hsame
        omega
      · have hlater := ih hmem
        omega

/-- Two intervals can have one place only if it is a register and the earlier one has ended when the later one begins. -/
theorem pairwise_scan (active : List (Interval × Register)) (slots : Nat)
    (hsorted : intervals.Pairwise fun a b => a.start ≤ b.start) : (scan active slots intervals).Pairwise fun a b =>
      a.2 = b.2 → a.1.stop < b.1.start ∧ ∃ r, a.2 = register r := by
  induction intervals generalizing active slots with
  | nil => exact Pairwise.nil
  | cons interval rest ih =>
    obtain ⟨-, hrest⟩ := pairwise_cons.1 hsorted
    rcases scan_cons active slots interval rest with ⟨free, -, -, hassign⟩ | ⟨-, hassign⟩
    · rw [hassign]
      refine pairwise_cons.2 ⟨?_, ih _ _ hrest⟩
      intro ⟨later, place⟩ hlater hsame
      subst hsame
      refine ⟨Nat.lt_of_not_le fun hends => ?_, free, rfl⟩
      exact ne_of_mem_scan hrest hlater mem_cons_self hends rfl
    · rw [hassign]
      refine pairwise_cons.2 ⟨?_, ih _ _ hrest⟩
      intro ⟨later, place⟩ hlater hsame
      subst hsame
      have hnew := le_of_mem_scan hlater
      omega

theorem location_injective (saved : Nat) : Function.Injective (location saved) := by
  intro a b hsame
  cases a with
  | register r =>
    cases b with
    | register r' => simpa [location] using hsame
    | slot index => simp [location] at hsame
  | slot index =>
    cases b with
    | register r' => simp [location] at hsame
    | slot index' =>
      simp only [location, Location.frame.injEq] at hsame
      have hindex : index = index' := by omega
      rw [hindex]

end Placement

section

variable {intervals : List Interval}

theorem assign_replicate (intervals : List Interval) :
    assign [] (Array.replicate Register.pool.length true) 0 intervals = scan [] 0 intervals :=
  @assign_eq_scan [] nodup_nil (fun _ hr => absurd hr not_mem_nil) 0 intervals

theorem linearScan_assigned (intervals : List Interval) : (linearScan intervals).assigned =
    (scan [] 0 (Interval.sort intervals)).map fun entry => (entry.1, entry.2.location (linearScan intervals).saved.length) := by
  unfold linearScan
  rw [assign_replicate]

theorem map_fst_assigned_linearScan (intervals : List Interval) :
    (linearScan intervals).assigned.map Prod.fst = Interval.sort intervals := by
  rw [linearScan_assigned, map_map]
  exact map_fst_scan [] 0 (Interval.sort intervals)

/-- With one interval for each variable, the location of a variable is the one its interval was given. -/
theorem location?_of_mem_assigned {allocation : Allocation} (hnodup : ((allocation.assigned.map Prod.fst).map (·.var)).Nodup)
    {interval : Interval} {location : Location} (hmem : (interval, location) ∈ allocation.assigned) :
    allocation.location? interval.var = some location := by
  obtain ⟨first, last, hsplit⟩ := append_of_mem hmem
  rw [map_map, hsplit, map_append, map_cons] at hnodup
  obtain ⟨-, hbehind, hdisjoint⟩ := nodup_append.1 hnodup
  have hfirst : first.filter (fun entry => entry.1.var == interval.var) = [] := by
    apply filter_eq_nil_iff.2
    intro entry hentry hsame
    exact hdisjoint _ (mem_map_of_mem hentry) _ mem_cons_self (beq_iff_eq.1 hsame)
  have hlast : last.filter (fun entry => entry.1.var == interval.var) = [] := by
    apply filter_eq_nil_iff.2
    intro entry hentry hsame
    have hother := (nodup_cons.1 hbehind).1
    apply hother
    have hvar : entry.1.var = interval.var := beq_iff_eq.1 hsame
    exact mem_map.2 ⟨entry, hentry, hvar⟩
  have hfilter : allocation.assigned.filter (fun entry => entry.1.var == interval.var) = [(interval, location)] := by
    rw [hsplit, filter_append, hfirst, filter_cons_of_pos (by simp), hlast, nil_append]
  unfold Allocation.location?
  change ((allocation.assigned.filter fun entry => entry.1.var == interval.var).getLast?).map Prod.snd = some location
  rw [hfilter]
  rfl

theorem exists_location? (hnodup : (intervals.map (·.var)).Nodup) {interval : Interval} (hinterval : interval ∈ intervals) :
    ∃ location, (interval, location) ∈ (linearScan intervals).assigned ∧
      (linearScan intervals).location? interval.var = some location := by
  have hsorted := map_fst_assigned_linearScan intervals
  have hassigned : interval ∈ (linearScan intervals).assigned.map Prod.fst := by
    rw [hsorted]
    exact Interval.mem_sort.2 hinterval
  obtain ⟨⟨_, location⟩, hmem, rfl⟩ := mem_map.1 hassigned
  refine ⟨location, hmem, location?_of_mem_assigned ?_ hmem⟩
  rw [hsorted]
  exact Interval.nodup_vars_sort hnodup

theorem mem_pool_of_location? {id : Nat} {r : Register} (hlocation : (linearScan intervals).location? id = some (.register r)) :
    r ∈ Register.pool := by
  obtain ⟨⟨interval, location⟩, hlast, rfl⟩ := Option.map_eq_some_iff.1 hlocation
  have hassigned := (mem_filter.1 (mem_of_getLast? hlast)).1
  rw [linearScan_assigned] at hassigned
  obtain ⟨⟨_, placement⟩, hplaced, hsame⟩ := mem_map.1 hassigned
  cases placement with
  | register taken =>
    obtain ⟨rfl, ⟨⟩⟩ := Prod.mk.inj hsame
    exact mem_pool_of_mem_scan hplaced
  | slot index =>
    obtain ⟨-, ⟨⟩⟩ := Prod.mk.inj hsame

theorem pairwise_assigned_linearScan (intervals : List Interval) : (linearScan intervals).assigned.Pairwise fun a b =>
      a.2 = b.2 → a.1.stop < b.1.start ∧ ∃ r, a.2 = .register r := by
  rw [linearScan_assigned]
  apply pairwise_map.2
  refine (pairwise_scan [] 0 (Interval.sorted_sort intervals)).imp fun hapart hsame => ?_
  obtain ⟨hends, r, hplace⟩ := hapart (location_injective _ hsame)
  exact ⟨hends, r, congrArg (location _) hplace⟩

/-- Intervals that share a number have different locations, whichever of them was placed first. -/
theorem pairwise_linearScan (intervals : List Interval) :
    ∀ ⦃a⦄, a ∈ (linearScan intervals).assigned → ∀ ⦃b⦄, b ∈ (linearScan intervals).assigned →
      a.1.var ≠ b.1.var → a.1.start ≤ b.1.stop → b.1.start ≤ a.1.stop → a.2 ≠ b.2 := by
  have hlocated := pairwise_assigned_linearScan intervals
  apply Pairwise.forall_of_forall_of_flip
  · intro a _ hvar
    exact absurd rfl hvar
  · exact hlocated.imp fun hapart _ _ hends hsame => Nat.not_le_of_lt (hapart hsame).1 hends
  · exact hlocated.imp fun hapart _ hends _ hsame => Nat.not_le_of_lt (hapart hsame.symm).1 hends

/-- Variables that are live at one number do not share a location. -/
theorem location?_ne_of_overlap (hnodup : (intervals.map (·.var)).Nodup) {a b : Interval} (ha : a ∈ intervals)
    (hb : b ∈ intervals) (hvar : a.var ≠ b.var) (hab : a.start ≤ b.stop) (hba : b.start ≤ a.stop) :
    (linearScan intervals).location? a.var ≠ (linearScan intervals).location? b.var := by
  obtain ⟨location, hmem, hlocation⟩ := exists_location? hnodup ha
  obtain ⟨location', hmem', hlocation'⟩ := exists_location? hnodup hb
  rw [hlocation, hlocation']
  intro hsame
  exact pairwise_linearScan intervals hmem hmem' hvar hab hba (Option.some.inj hsame)

end

end NanScript
