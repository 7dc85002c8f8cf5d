import Mathlib.Algebra.GroupWithZero.Nat
import Mathlib.Data.List.Nodup
import NanScript.Proofs.Safepoint
import NanScript.ThreadTable

/-!
# Results are delivered once

Threads are spawned, run and joined in any order and by any number of threads, while the safepoint protocol goes on around them:
`Step`. Each step is one section under the lock of the table or of the registry. Between entering a thread in the table and
making it claimable the spawner lets go of the lock, so the thread may have returned before anybody can join it. Between claiming
a thread and taking its result a joiner waits for its end.

`Thread` says how far each of the parties has come with a thread. It determines the entry of the table (`Thread.entry?`), and
that every step keeps it so is the invariant, `Accounted`.
-/

namespace NanScript

open Function ThreadTable List

/-! ### What the operations do to the table -/

namespace ThreadTable

variable {table : ThreadTable} {handle other : Int32}

theorem get?_modify {change : ThreadEntry → ThreadEntry} :
    (table.modify handle change).get? other = (table.get? other).map fun entry => if other = handle then change entry else entry := by
  unfold get? modify
  dsimp only
  induction table.entries with
  | nil => rfl
  | cons first rest ih =>
    obtain ⟨key, entry⟩ := first
    by_cases hkey : other = key
    · simp [hkey]
    · simpa [lookup_cons, beq_false_of_ne hkey] using ih

theorem get?_take : (table.take handle).2.get? other = if other = handle then none else table.get? other := by
  unfold get? take
  dsimp only
  induction table.entries with
  | nil => simp
  | cons first rest ih =>
    obtain ⟨key, entry⟩ := first
    by_cases hkey : other = key <;> by_cases hhandle : key = handle
    · simpa [hhandle, hkey] using ih
    · simp [hkey, hhandle]
    · have hne : other ≠ handle := hhandle ▸ hkey
      simpa [lookup_cons, hhandle, hne, beq_false_of_ne hne] using ih
    · simpa [lookup_cons, hhandle, beq_false_of_ne hkey] using ih

theorem get?_enter {argument : Value} : (table.enter argument).2.get? other =
    if other = table.next then some { argument } else table.get? other := by
  have hothers : (table.entries.filter (·.1 != table.next)).lookup other = if other = table.next then none else table.get? other :=
    get?_take
  unfold get? enter
  rw [lookup_append, hothers]
  split
  · next hnext => simp [hnext]
  · next hnext => simp [lookup_cons, beq_false_of_ne hnext, get?]

theorem get?_claim : (table.claim handle).2.get? other =
    (table.get? other).map fun entry => if other = handle then { entry with claimable := false } else entry := by
  unfold claim
  split
  · exact get?_modify
  · next hnone =>
    cases hother : table.get? other with
    | none => rfl
    | some entry =>
      have hne : other ≠ handle := fun hsame => by rw [hsame, hnone] at hother; cases hother
      simp [hne]

@[simp] theorem next_claim : (table.claim handle).2.next = table.next := by
  unfold claim
  split <;> rfl

theorem claim_eq_true_iff : (table.claim handle).1 = true ↔ ∃ entry, table.get? handle = some entry ∧ entry.claimable = true := by
  unfold claim
  split
  · next entry hentry => simp [hentry]
  · next hnone => simp [hnone]

end ThreadTable

namespace Delivery

/-! ### Threads and those who deal with them -/

/-- How far a thread has come. Its runner is the thread of the system that runs it. -/
inductive Stage where
  /-- It stands in the table, but no runner has been made. -/
  | entered
  /-- No runner could be made, and it has been taken out of the table again. -/
  | refused
  | begun (runner : Nat)
  | registered (runner : Nat)
  /-- It has put its result into the table. -/
  | returned (runner : Nat) (result : Value)
  /-- It has unregistered. -/
  | ended (runner : Nat) (result : Value)
  deriving DecidableEq, Repr

namespace Stage

def runner? : Stage → Option Nat
  | begun runner | registered runner | returned runner _ | ended runner _ => some runner
  | _ => none

def result? : Stage → Option Value
  | returned _ result | ended _ result => some result
  | _ => none

def isRegistered : Stage → Bool
  | registered _ | returned _ _ => true
  | _ => false

end Stage

/-- How far those who want to join a thread have come. -/
inductive Claim where
  /-- The spawner has not made it claimable yet. -/
  | withheld
  | unclaimed
  /-- A joiner has succeeded and waits. -/
  | claimed (joiner : Nat)
  /-- The joiner has taken the result, and the thread is in the table no more. -/
  | consumed
  deriving DecidableEq, Repr

structure Thread where
  argument : Value
  stage : Stage := .entered
  claim : Claim := .withheld

namespace Thread

/-- It has been spawned, and no join has consumed it. -/
def isPending (thread : Thread) : Bool := thread.stage != .refused && thread.claim != .consumed

def entry? (thread : Thread) : Option ThreadEntry :=
  if thread.isPending then
    some { argument := thread.argument, result := thread.stage.result?, claimable := thread.claim == .unclaimed }
  else none

end Thread

attribute [local simp] Thread.isPending Thread.entry?

structure System where
  world : Safepoint.World := {}
  table : ThreadTable := {}
  threads : Int32 → Option Thread := fun _ => none
  /-- The handles that have been given out. -/
  given : List Int32 := []
  /-- The handles of the joins that have returned, with the results if they had any. -/
  joins : List (Int32 × Option Value) := []

namespace System

/-- A thread, or somebody who deals with it, has come further. -/
abbrev update (system : System) (handle : Int32) (thread : Thread) : System :=
  { system with threads := Function.update system.threads handle (some thread) }

/-- A thread of the system that runs a thread of the program. -/
def Runs (system : System) (runner : Nat) : Prop :=
  ∃ handle thread, system.threads handle = some thread ∧ thread.stage.runner? = some runner

end System

/-- One party does one thing. -/
inductive Step (system : System) : System → Prop where
  | enter (argument : Value) : Step system
      ({ system with table := (system.table.enter argument).2, given := system.given ++ [(system.table.enter argument).1] }.update
        (system.table.enter argument).1 { argument })
  | refuse (handle : Int32) {thread : Thread} (found : system.threads handle = some thread)
      (entered : thread.stage = .entered) : Step system
      ({ system with table := (system.table.take handle).2 }.update handle { thread with stage := .refused })
  | start (handle : Int32) (runner : Nat) {thread : Thread} (found : system.threads handle = some thread)
      (entered : thread.stage = .entered) (unused : ¬ system.Runs runner)
      (unregistered : system.world.registry.isRegistered runner = false) : Step system
      (system.update handle { thread with stage := .begun runner })
  | announce (handle : Int32) {thread : Thread} (found : system.threads handle = some thread)
      (started : thread.stage.runner?.isSome) (withheld : thread.claim = .withheld) : Step system
      ({ system with table := system.table.started handle }.update handle { thread with claim := .unclaimed })
  | register (handle : Int32) (bottom : Nat) {runner : Nat} {thread : Thread} (found : system.threads handle = some thread)
      (begun : thread.stage = .begun runner) (running : system.world.phase runner = .running)
      (unlocked : system.world.sweeper = none) : Step system
      ({ system with world := { system.world with registry := system.world.registry.register runner bottom } }.update handle
        { thread with stage := .registered runner })
  | finish (handle : Int32) (result : Value) {runner : Nat} {thread : Thread}
      (found : system.threads handle = some thread) (registered : thread.stage = .registered runner)
      (running : system.world.phase runner = .running) : Step system
      ({ system with table := system.table.returned handle result }.update handle
        { thread with stage := .returned runner result })
  | unregister (handle : Int32) {runner : Nat} {result : Value} {thread : Thread}
      (found : system.threads handle = some thread) (returned : thread.stage = .returned runner result)
      (running : system.world.phase runner = .running) (unlocked : system.world.sweeper = none) : Step system
      ({ system with world := { system.world with registry := system.world.registry.unregister runner } }.update handle
        { thread with stage := .ended runner result })
  /-- A join finds nothing to claim and returns null. -/
  | miss (joiner : Nat) (handle : Int32) (running : system.world.phase joiner = .running)
      (missed : (system.table.claim handle).1 = false) : Step system
      { system with table := (system.table.claim handle).2, joins := system.joins ++ [(handle, none)] }
  | claim (joiner : Nat) (handle : Int32) {thread : Thread} (running : system.world.phase joiner = .running)
      (claimed : (system.table.claim handle).1 = true) (found : system.threads handle = some thread) : Step system
      ({ system with table := (system.table.claim handle).2 }.update handle { thread with claim := .claimed joiner })
  /-- A joiner sees that the thread has ended, and returns its result. -/
  | take (handle : Int32) {joiner runner : Nat} {result : Value} {thread : Thread}
      (found : system.threads handle = some thread) (claimed : thread.claim = .claimed joiner)
      (running : system.world.phase joiner = .running) (ended : thread.stage = .ended runner result) : Step system
      ({ system with
          table := (system.table.take handle).2
          joins := system.joins ++ [(handle, (system.table.take handle).1)] }.update handle
        { thread with claim := .consumed })
  /-- The safepoint protocol goes on. Only a runner itself registers and unregisters. -/
  | safepoint {world : Safepoint.World} (step : Safepoint.Step system.world world)
      (others : ∀ runner, system.Runs runner →
        world.registry.isRegistered runner = system.world.registry.isRegistered runner) : Step system { system with world }

inductive Reachable : System → Prop where
  | start : Reachable {}
  | step {system after : System} (reachable : Reachable system) (step : Step system after) : Reachable after

/-! ### The invariant -/

/-- Runners are different, and registered at the stages at which they should be. -/
structure Paired (world : Safepoint.World) (threads : Int32 → Option Thread) : Prop where
  orderly : Safepoint.Orderly world
  alone : ∀ first second one two runner, threads first = some one → threads second = some two →
    one.stage.runner? = some runner → two.stage.runner? = some runner → first = second
  registered : ∀ handle thread runner, threads handle = some thread → thread.stage.runner? = some runner →
    world.registry.isRegistered runner = thread.stage.isRegistered

/-- The table holds of each thread what it should. -/
def Accounted (table : ThreadTable) (threads : Int32 → Option Thread) : Prop :=
  ∀ handle, table.get? handle = (threads handle).bind Thread.entry?

/-- The handle that is given out behind `count` others. -/
def handleAt (count : Nat) : Int32 := .ofNat (count + 1)

/-- Handles are given out in order, and every thread has one. -/
structure Numbered (table : ThreadTable) (threads : Int32 → Option Thread) (given : List Int32) : Prop where
  order : given = (range given.length).map handleAt
  next : table.next = handleAt given.length
  known : ∀ handle, (threads handle).isSome → handle ∈ given

/-- Only consumed threads have been delivered, each of them once. -/
structure Delivered (joins : List (Int32 × Option Value)) (threads : Int32 → Option Thread) : Prop where
  once : ∀ handle, joins.countP (fun join => join.1 = handle ∧ join.2.isSome) ≤ 1
  consumed : ∀ handle result, (handle, some result) ∈ joins → ∃ thread runner, threads handle = some thread ∧
    thread.claim = .consumed ∧ thread.stage = .ended runner result

/-- What holds while no handle has been given out twice. -/
structure Sound (system : System) : Prop where
  paired : Paired system.world system.threads
  accounted : Accounted system.table system.threads
  delivered : Delivered system.joins system.threads

section

variable {world : Safepoint.World} {table : ThreadTable} {threads : Int32 → Option Thread} {joins : List (Int32 × Option Value)}
  {handle : Int32} {thread after : Thread} {given : List Int32}

theorem Paired.update (hpaired : Paired world threads) {world' : Safepoint.World} (horderly : Safepoint.Orderly world')
    (hself : ∀ runner, after.stage.runner? = some runner → world'.registry.isRegistered runner = after.stage.isRegistered ∧
      ∀ other old, other ≠ handle → threads other = some old → old.stage.runner? ≠ some runner)
    (hothers : ∀ runner, after.stage.runner? ≠ some runner →
      world'.registry.isRegistered runner = world.registry.isRegistered runner) :
    Paired world' (update threads handle (some after)) := by
  refine ⟨horderly, ?_, ?_⟩
  · intro first second one two runner hone htwo hfirst hsecond
    rw [update_apply] at hone htwo
    split at hone <;> split at htwo
    · next hleft hright => exact hleft.trans hright.symm
    · next hright =>
      obtain rfl := Option.some.inj hone
      exact absurd hsecond ((hself runner hfirst).2 second two hright htwo)
    · next hleft _ =>
      obtain rfl := Option.some.inj htwo
      exact absurd hfirst ((hself runner hsecond).2 first one hleft hone)
    · exact hpaired.alone first second one two runner hone htwo hfirst hsecond
  · intro other found runner hfound hrunner
    rw [update_apply] at hfound
    split at hfound
    · obtain rfl := Option.some.inj hfound
      exact (hself runner hrunner).1
    · next hother =>
      have hne : after.stage.runner? ≠ some runner := fun hsame => (hself runner hsame).2 other found hother hfound hrunner
      rw [hothers runner hne]
      exact hpaired.registered other found runner hfound hrunner

theorem Paired.ne (hpaired : Paired world threads) (hfound : threads handle = some thread) {runner : Nat}
    (hrunner : thread.stage.runner? = some runner) (other : Int32) (old : Thread) (hother : other ≠ handle)
    (hold : threads other = some old) : old.stage.runner? ≠ some runner :=
  fun hsame => hother (hpaired.alone other handle old thread runner hold hfound hsame hrunner)

theorem Paired.keep (hpaired : Paired world threads) (hfound : threads handle = some thread)
    (hrunner : after.stage.runner? = thread.stage.runner?) (hregistered : after.stage.isRegistered = thread.stage.isRegistered) :
    Paired world (Function.update threads handle (some after)) := by
  refine hpaired.update hpaired.orderly (fun runner hself => ?_) fun _ _ => rfl
  rw [hrunner] at hself
  exact ⟨(hpaired.registered handle thread runner hfound hself).trans hregistered.symm, hpaired.ne hfound hself⟩

section

variable (haccounted : Accounted table threads)

include haccounted

theorem Accounted.update {table' : ThreadTable}
    (hentries : ∀ other, table'.get? other = if other = handle then after.entry? else table.get? other) :
    Accounted table' (update threads handle (some after)) := by
  refine fun other => (hentries other).trans ?_
  rw [update_apply]
  split
  · rfl
  · exact haccounted other

section

variable (hfound : threads handle = some thread)

include hfound

theorem Accounted.keep (hentry : after.entry? = thread.entry?) :
    Accounted table (Function.update threads handle (some after)) := by
  refine haccounted.update fun other => ?_
  split
  · next hsame => rw [hsame, haccounted, hfound, hentry]; rfl
  · rfl

theorem Accounted.change {table' : ThreadTable} {change : ThreadEntry → ThreadEntry}
    (htable : ∀ other, table'.get? other = (table.get? other).map fun entry => if other = handle then change entry else entry)
    (hentry : after.entry? = thread.entry?.map change) : Accounted table' (Function.update threads handle (some after)) := by
  refine haccounted.update fun other => (htable other).trans ?_
  split
  · next hsame => rw [hsame, haccounted, hfound, hentry]; rfl
  · exact Option.map_id' ..

omit hfound in
theorem Accounted.take (hentry : after.entry? = none) :
    Accounted (table.take handle).2 (Function.update threads handle (some after)) := by
  refine haccounted.update fun other => ?_
  rw [get?_take, hentry]

omit hfound in
theorem Accounted.miss (hmissed : (table.claim handle).1 = false) : Accounted (table.claim handle).2 threads := by
  refine fun other => Eq.trans ?_ (haccounted other)
  rw [get?_claim]
  cases hother : table.get? other with
  | none => rfl
  | some entry =>
    refine congrArg some ?_
    split
    · next heq =>
      have hclaimable : entry.claimable = false := Bool.eq_false_iff.2 fun hclaimable => by
        rw [claim_eq_true_iff.2 ⟨entry, heq ▸ hother, hclaimable⟩] at hmissed
        cases hmissed
      rw [← hclaimable]
    · rfl

theorem Accounted.claimable (hclaimed : (table.claim handle).1 = true) :
    thread.claim = .unclaimed ∧ thread.isPending = true := by
  obtain ⟨entry, hentry, hclaimable⟩ := claim_eq_true_iff.1 hclaimed
  rw [haccounted handle, hfound, Option.bind_some, Thread.entry?] at hentry
  split at hentry
  · next hpending =>
    obtain rfl := Option.some.inj hentry
    exact ⟨beq_iff_eq.1 hclaimable, hpending⟩
  · cases hentry

theorem Accounted.take_result {joiner runner : Nat} {result : Value} (hclaimed : thread.claim = .claimed joiner)
    (hended : thread.stage = .ended runner result) : (table.take handle).1 = some result := by
  unfold ThreadTable.take
  rw [haccounted handle, hfound]
  simp [Stage.result?, hclaimed, hended]

end

end

theorem Delivered.update (hdelivered : Delivered joins threads) (hpending : ∀ result, (handle, some result) ∉ joins) :
    Delivered joins (update threads handle (some after)) := by
  refine ⟨hdelivered.once, fun other result hjoin => ?_⟩
  have hother : other ≠ handle := fun hsame => hpending result (hsame ▸ hjoin)
  rw [update_of_ne hother]
  exact hdelivered.consumed other result hjoin

theorem Delivered.pending (hdelivered : Delivered joins threads) (hfound : threads handle = some thread)
    (hthread : thread.claim = .consumed → ∀ runner result, thread.stage ≠ .ended runner result) (result : Value) :
    (handle, some result) ∉ joins := by
  intro hjoin
  obtain ⟨found, runner, hfound', hclaim, hstage⟩ := hdelivered.consumed handle result hjoin
  obtain rfl := Option.some.inj (hfound.symm.trans hfound')
  exact hthread hclaim runner result hstage

theorem Delivered.take (hdelivered : Delivered joins threads) (hpending : ∀ result, (handle, some result) ∉ joins) {runner : Nat}
    {result : Value} (hclaim : after.claim = .consumed) (hended : after.stage = .ended runner result) :
    Delivered (joins ++ [(handle, some result)]) (Function.update threads handle (some after)) := by
  refine ⟨fun other => ?_, fun other delivered hjoin => ?_⟩
  · rw [countP_append]
    by_cases hother : other = handle
    · have hnone : joins.countP (fun join => join.1 = handle ∧ join.2.isSome) = 0 := by
        refine countP_eq_zero.2 fun join hjoin hcounts => ?_
        obtain ⟨hhandle, hsome⟩ := of_decide_eq_true hcounts
        obtain ⟨value, hvalue⟩ := Option.isSome_iff_exists.1 hsome
        exact hpending value (hhandle ▸ hvalue ▸ hjoin)
      rw [hother, hnone]
      exact Nat.le_of_eq (by simp)
    · simpa [Ne.symm hother] using hdelivered.once other
  · rcases mem_append.1 hjoin with hjoin | hjoin
    · exact (hdelivered.update hpending).consumed other delivered hjoin
    · obtain ⟨rfl, hsame⟩ := Prod.mk.inj (mem_singleton.1 hjoin)
      obtain rfl := Option.some.inj hsame
      exact ⟨after, runner, Function.update_self .., hclaim, hended⟩

/-! ### Handles -/

/-- Of handles that are given out in order, the first to come again is the first one, behind all others. -/
theorem handleAt_inj {first second : Nat} (hfirst : first < 2 ^ 32) (hsecond : second < 2 ^ 32) :
    handleAt first = handleAt second ↔ first = second := by
  refine ⟨fun hsame => ?_, congrArg handleAt⟩
  have hbits := congrArg (fun handle : Int32 => handle.toBitVec.toNat) hsame
  simp only [handleAt, Int32.toBitVec_ofNat', BitVec.toNat_ofNat] at hbits
  omega

namespace Numbered

variable (hnumbered : Numbered table threads given)

include hnumbered

theorem fresh (hgiven : given.length < 2 ^ 32) : threads table.next = none := by
  refine Option.not_isSome_iff_eq_none.1 fun hsome => ?_
  have hold := hnumbered.known _ hsome
  rw [hnumbered.order, hnumbered.next] at hold
  obtain ⟨count, hcount, hsame⟩ := mem_map.1 hold
  rw [mem_range] at hcount
  rw [handleAt_inj (Nat.lt_trans hcount hgiven) hgiven] at hsame
  exact Nat.ne_of_lt hcount hsame

theorem enter (argument : Value) : Numbered (table.enter argument).2
    (Function.update threads (table.enter argument).1 (some after)) (given ++ [(table.enter argument).1]) := by
  refine ⟨?_, ?_, fun handle hhandle => ?_⟩
  · rw [length_append, length_singleton, range_succ, map_append, ← hnumbered.order, map_singleton, ← hnumbered.next]
    rfl
  · rw [length_append, length_singleton]
    change table.next + 1 = _
    rw [hnumbered.next]
    exact (Int32.ofNat_add ..).symm
  · rw [update_apply] at hhandle
    split at hhandle
    · next hsame => simp [hsame]
    · exact mem_append_left _ (hnumbered.known handle hhandle)

theorem keep (hfound : threads handle = some thread) {table' : ThreadTable} (hnext : table'.next = table.next) :
    Numbered table' (Function.update threads handle (some after)) given := by
  refine ⟨hnumbered.order, hnext.trans hnumbered.next, fun other hother => ?_⟩
  rw [update_apply] at hother
  split at hother
  · next hsame => exact hsame ▸ hnumbered.known handle (by rw [hfound]; rfl)
  · exact hnumbered.known other hother

end Numbered

end

theorem Numbered.step {system after : System} (hnumbered : Numbered system.table system.threads system.given)
    (hstep : Step system after) : Numbered after.table after.threads after.given := by
  cases hstep with
  | enter argument => exact hnumbered.enter argument
  | refuse _ hfound | start _ _ hfound | announce _ hfound | register _ _ hfound => exact hnumbered.keep hfound rfl
  | finish _ _ hfound | unregister _ hfound | take _ hfound => exact hnumbered.keep hfound rfl
  | miss => exact ⟨hnumbered.order, next_claim.trans hnumbered.next, hnumbered.known⟩
  | claim _ _ _ _ hfound => exact hnumbered.keep hfound next_claim
  | safepoint => exact hnumbered

theorem Reachable.numbered {system : System} (hsystem : Reachable system) :
    Numbered system.table system.threads system.given := by
  induction hsystem with
  | start => exact ⟨rfl, rfl, nofun⟩
  | step _ hstep ih => exact ih.step hstep

theorem Step.length_given {system after : System} (hstep : Step system after) : system.given.length ≤ after.given.length := by
  cases hstep with
  | enter => simp
  | _ => exact Nat.le_refl _

/-- What one step keeps. -/
theorem Sound.step {system after : System} (hsystem : Sound system) (hstep : Step system after)
    (hnumbered : Numbered system.table system.threads system.given) (hgiven : after.given.length ≤ 2 ^ 32) : Sound after := by
  obtain ⟨hpaired, haccounted, hdelivered⟩ := hsystem
  cases hstep with
  | enter argument =>
    have hnone : system.threads system.table.next = none := hnumbered.fresh (by rw [length_append, length_singleton] at hgiven; omega)
    refine ⟨hpaired.update hpaired.orderly nofun fun _ _ => rfl, haccounted.update fun _ => get?_enter,
      hdelivered.update fun result hjoin => ?_⟩
    obtain ⟨thread, -, hfound, -⟩ := hdelivered.consumed _ result hjoin
    cases hnone.symm.trans hfound
  | refuse handle hfound hentered =>
    exact ⟨hpaired.update hpaired.orderly nofun fun _ _ => rfl,
      haccounted.take (by simp),
      hdelivered.update (hdelivered.pending hfound (by simp [hentered]))⟩
  | start handle runner hfound hentered hunused hunregistered =>
    refine ⟨hpaired.update hpaired.orderly (fun other hself => ?_) fun _ _ => rfl, haccounted.keep hfound ?_,
      hdelivered.update (hdelivered.pending hfound (by simp [hentered]))⟩
    · obtain rfl := Option.some.inj hself
      exact ⟨hunregistered, fun other old _ hold hsame => hunused ⟨other, old, hold, hsame⟩⟩
    · simp [Stage.result?, hentered]
  | announce handle hfound hstarted hwithheld =>
    refine ⟨hpaired.keep hfound rfl rfl, haccounted.change hfound (fun _ => get?_modify) ?_,
      hdelivered.update (hdelivered.pending hfound (by simp [hwithheld]))⟩
    simp [hwithheld, apply_ite]
  | register handle bottom hfound hbegun hrunning hunlocked =>
    refine ⟨hpaired.update (hpaired.orderly.register bottom hrunning hunlocked) (fun other hself => ?_) fun other hother => ?_,
      haccounted.keep hfound ?_, hdelivered.update (hdelivered.pending hfound (by simp [hbegun]))⟩
    · obtain rfl := Option.some.inj hself
      exact ⟨Registry.isRegistered_register_self, hpaired.ne hfound (by rw [hbegun]; rfl)⟩
    · exact Registry.isRegistered_register_of_ne fun hsame => hother (congrArg some hsame.symm)
    · simp [Stage.result?, hbegun]
  | finish handle result hfound hregistered hrunning =>
    refine ⟨hpaired.keep hfound (by rw [hregistered]; rfl) (by rw [hregistered]; rfl),
      haccounted.change hfound (fun _ => get?_modify) ?_,
      hdelivered.update (hdelivered.pending hfound (by simp [hregistered]))⟩
    simp [Stage.result?, hregistered, apply_ite]
  | unregister handle hfound hreturned hrunning hunlocked =>
    refine ⟨hpaired.update (hpaired.orderly.unregister hrunning hunlocked) (fun other hself => ?_) fun other hother => ?_,
      haccounted.keep hfound ?_, hdelivered.update (hdelivered.pending hfound (by simp [hreturned]))⟩
    · obtain rfl := Option.some.inj hself
      exact ⟨Registry.isRegistered_unregister_self, hpaired.ne hfound (by rw [hreturned]; rfl)⟩
    · exact Registry.isRegistered_unregister_of_ne fun hsame => hother (congrArg some hsame.symm)
    · simp [Stage.result?, hreturned]
  | miss joiner handle hrunning hmissed =>
    refine ⟨hpaired, haccounted.miss hmissed, ⟨fun other => ?_, fun other result hjoin => ?_⟩⟩
    · rw [countP_append]
      simpa using hdelivered.once other
    · exact hdelivered.consumed other result (by simpa using hjoin)
  | claim joiner handle hrunning hclaimed hfound =>
    obtain ⟨hunclaimed, hpending⟩ := haccounted.claimable hfound hclaimed
    refine ⟨hpaired.keep hfound rfl rfl,
      haccounted.change hfound (fun _ => get?_claim) ?_,
      hdelivered.update (hdelivered.pending hfound (by simp [hunclaimed]))⟩
    simp_all
  | take handle hfound hclaimed hrunning hended =>
    rw [haccounted.take_result hfound hclaimed hended]
    exact ⟨hpaired.keep hfound rfl rfl, haccounted.take (by simp),
      hdelivered.take (hdelivered.pending hfound (by simp [hclaimed])) rfl hended⟩
  | safepoint hstep hothers =>
    refine ⟨⟨hpaired.orderly.step hstep, hpaired.alone, fun handle thread runner hfound hrunner => ?_⟩, haccounted, hdelivered⟩
    exact (hothers runner ⟨handle, thread, hfound, hrunner⟩).trans (hpaired.registered handle thread runner hfound hrunner)

theorem Reachable.sound {system : System} (hsystem : Reachable system) (hgiven : system.given.length ≤ 2 ^ 32) : Sound system := by
  induction hsystem with
  | start => exact ⟨⟨Safepoint.Orderly.start, nofun, nofun⟩, fun _ => rfl, ⟨fun _ => Nat.zero_le _, nofun⟩⟩
  | step hbefore hstep ih => exact (ih (Nat.le_trans hstep.length_given hgiven)).step hstep hbefore.numbered hgiven

end Delivery

end NanScript
