import Mathlib.Logic.Function.Basic
import NanScript.Proofs.Count
import NanScript.Safepoint

/-!
# Stopping the world

The sections of `Registry` as threads run into them, in any order and any number of threads: `Step`. A thread reads the
flag and captures its stack without the lock. Every other step is a section under the lock, so none of them happens
while a collector that has stopped the world keeps the lock to mark and sweep.

The invariant is `Orderly`. Its heart is that `stopped` counts registered threads that are parked, woken ones included
until they get the lock again. The collector compares that number with the number of the others, itself not parked, so
when it goes on there is no other that is not parked (`Orderly.parked_of_worldStopped`).
-/

namespace NanScript

open Registry List

variable {phase : Phase}

namespace Safepoint

/-- What a thread is doing. -/
inductive Phase where
  | running
  /-- It has seen the flag up and captured itself. It has not got the lock yet. -/
  | approaching (capture : Capture)
  /-- It waits for the flag to go down. -/
  | parked (capture : Capture)
  /-- It has captured itself and wants to collect. It has not got the lock yet. -/
  | requesting (capture : Capture)
  /-- It has raised the flag. It waits for the others, or marks and sweeps. -/
  | collecting
  deriving DecidableEq, Repr, Inhabited

def Phase.isParked : Phase → Bool
  | parked _ => true
  | _ => false

/-- All threads, the registered ones and the others, and what they share. -/
structure World where
  registry : Registry := {}
  phase : Nat → Phase := fun _ => .running
  /-- The collector that keeps the lock while it marks and sweeps. -/
  sweeper : Option Nat := none

namespace World

/-- One thread goes over to something else. -/
def turn (world : World) (id : Nat) (phase : Phase) : World :=
  { world with phase := Function.update world.phase id phase }

/-- The section of a thread that parks, up to the wait. -/
def park (world : World) (id : Nat) (capture : Capture) : World :=
  let (waits, registry) := world.registry.park id capture
  { world with registry }.turn id (if waits then .parked capture else .running)

/-- The first section of a thread that collects, up to the wait. It parks if another one collects already. -/
def request (world : World) (id : Nat) (capture : Capture) : World :=
  let (begun, registry) := world.registry.beginCollection
  if begun then { world with registry }.turn id .collecting else world.park id capture

end World

/-- One thread does one thing. -/
inductive Step : World → World → Prop where
  | register {world : World} (id bottom : Nat) (running : world.phase id = .running)
      (unlocked : world.sweeper = none) :
      Step world { world with registry := world.registry.register id bottom }
  | unregister {world : World} (id : Nat) (running : world.phase id = .running) (unlocked : world.sweeper = none) :
      Step world { world with registry := world.registry.unregister id }
  /-- The flag is read without the lock. -/
  | poll {world : World} (id : Nat) (capture : Capture) (running : world.phase id = .running) :
      Step world (if world.registry.suspend then world.turn id (.approaching capture) else world)
  | park {world : World} (id : Nat) {capture : Capture} (approaching : world.phase id = .approaching capture)
      (unlocked : world.sweeper = none) : Step world (world.park id capture)
  /-- A parked thread that has been woken gets the lock again. -/
  | resume {world : World} (id : Nat) {capture : Capture} {registry : Registry}
      (parked : world.phase id = .parked capture) (unlocked : world.sweeper = none)
      (lowered : world.registry.resume? = some registry) : Step world ({ world with registry }.turn id .running)
  | call {world : World} (id : Nat) (capture : Capture) (running : world.phase id = .running) :
      Step world (world.turn id (.requesting capture))
  | request {world : World} (id : Nat) {capture : Capture} (requesting : world.phase id = .requesting capture)
      (unlocked : world.sweeper = none) : Step world (world.request id capture)
  /-- The collector finds the others stopped and marks and sweeps. -/
  | sweep {world : World} (id : Nat) (collecting : world.phase id = .collecting) (unlocked : world.sweeper = none)
      (stopped : world.registry.worldStopped id = true) : Step world { world with sweeper := some id }
  | finish {world : World} (id : Nat) (sweeping : world.sweeper = some id) :
      Step world ({ world with registry := world.registry.endCollection, sweeper := none }.turn id .running)

/-- What can come about, from a world in which nobody has registered. -/
inductive Reachable : World → Prop where
  | start : Reachable {}
  | step {world after : World} (reachable : Reachable world) (step : Step world after) : Reachable after

namespace World

@[simp] theorem turn_registry (world : World) (id : Nat) (phase : Phase) : (world.turn id phase).registry = world.registry :=
  rfl

@[simp] theorem turn_sweeper (world : World) (id : Nat) (phase : Phase) : (world.turn id phase).sweeper = world.sweeper :=
  rfl

@[simp] theorem turn_phase_self (world : World) (id : Nat) (phase : Phase) : (world.turn id phase).phase id = phase :=
  Function.update_self ..

theorem turn_phase_of_ne {world : World} {id other : Nat} (hother : other ≠ id) :
    (world.turn id phase).phase other = world.phase other := Function.update_of_ne hother ..

end World

end Safepoint

/-! ### What the sections do to the registry -/

namespace Registry

variable {registry : Registry} {id : Nat}

def ids (registry : Registry) : List Nat := registry.threads.map (·.id)

theorem isRegistered_iff : registry.isRegistered id = true ↔ id ∈ registry.ids := by
  simp [isRegistered, ids]

theorem others_eq : registry.others id = registry.ids.countP (· != id) := by
  rw [others, ids, countP_map]
  rfl

theorem ids_map {change : RegisteredThread → RegisteredThread} (hchange : ∀ thread, (change thread).id = thread.id) :
    ids { registry with threads := registry.threads.map change } = registry.ids := by
  simp [ids, hchange]

variable {bottom : Nat}

theorem ids_register_of_mem (hmem : id ∈ registry.ids) : (registry.register id bottom).ids = registry.ids := by
  rw [register, if_pos (isRegistered_iff.2 hmem)]
  exact ids_map fun thread => by split <;> rfl

theorem ids_register_of_not_mem (hmem : id ∉ registry.ids) :
    (registry.register id bottom).ids = registry.ids ++ [id] := by
  rw [register, if_neg (mt isRegistered_iff.1 hmem)]
  simp [ids]

theorem ids_unregister : (registry.unregister id).ids = registry.ids.filter (· != id) := by
  rw [unregister, ids, ids, filter_map]
  rfl

theorem isRegistered_register_self : (registry.register id bottom).isRegistered id = true := by
  rw [isRegistered_iff]
  by_cases hmem : id ∈ registry.ids
  · rwa [ids_register_of_mem hmem]
  · simp [ids_register_of_not_mem hmem]

theorem isRegistered_register_of_ne {other : Nat} (hother : other ≠ id) :
    (registry.register id bottom).isRegistered other = registry.isRegistered other := by
  rw [Bool.eq_iff_iff, isRegistered_iff, isRegistered_iff]
  by_cases hmem : id ∈ registry.ids
  · rw [ids_register_of_mem hmem]
  · simp [ids_register_of_not_mem hmem, hother]

theorem isRegistered_unregister_self : (registry.unregister id).isRegistered id = false := by
  simp [Bool.eq_false_iff, isRegistered_iff, ids_unregister]

theorem isRegistered_unregister_of_ne {other : Nat} (hother : other ≠ id) :
    (registry.unregister id).isRegistered other = registry.isRegistered other := by
  rw [Bool.eq_iff_iff, isRegistered_iff, isRegistered_iff, ids_unregister]
  simp [hother]

@[simp] theorem register_stopped : (registry.register id bottom).stopped = registry.stopped := by
  unfold register
  split <;> rfl

@[simp] theorem register_collecting : (registry.register id bottom).collecting = registry.collecting := by
  unfold register
  split <;> rfl

@[simp] theorem register_suspend : (registry.register id bottom).suspend = registry.suspend := by
  unfold register
  split <;> rfl

/-- The record of another thread stays; that of the thread itself keeps its capture, or is new. -/
theorem mem_threads_register {thread : RegisteredThread} (hthread : thread ∈ (registry.register id bottom).threads) :
    (∃ old ∈ registry.threads, old.id = thread.id ∧ old.capture = thread.capture) ∨ (thread.id = id ∧ id ∉ registry.ids) := by
  unfold register at hthread
  split at hthread
  · obtain ⟨old, hold, rfl⟩ := mem_map.1 hthread
    refine .inl ⟨old, hold, ?_⟩
    split <;> exact ⟨rfl, rfl⟩
  · rename_i hnot
    rcases mem_append.1 hthread with hthread | hthread
    · exact .inl ⟨thread, hthread, rfl, rfl⟩
    · obtain rfl := mem_singleton.1 hthread
      exact .inr ⟨rfl, mt isRegistered_iff.2 hnot⟩

end Registry

namespace Safepoint

/-! ### The invariant -/

/-- How many registered threads are parked. -/
def World.parkedCount (world : World) : Nat := world.registry.ids.countP fun id => (world.phase id).isParked

structure Orderly (world : World) : Prop where
  nodup : world.registry.ids.Nodup
  registered : ∀ id capture, world.phase id = .parked capture → id ∈ world.registry.ids
  recorded : ∀ thread ∈ world.registry.threads, ∀ capture, world.phase thread.id = .parked capture →
    thread.capture = capture
  counted : world.registry.stopped = world.parkedCount
  flag : world.registry.suspend = world.registry.collecting
  raised : world.registry.collecting = true ↔ ∃ id, world.phase id = .collecting
  alone : ∀ first second, world.phase first = .collecting → world.phase second = .collecting → first = second
  stopped : ∀ id, world.sweeper = some id → world.phase id = .collecting ∧ world.registry.worldStopped id = true

namespace Orderly

open World

variable {world : World} {id : Nat}

theorem start : Orderly {} where
  nodup := nodup_nil
  registered := by simp
  recorded := by simp
  counted := rfl
  flag := rfl
  raised := by simp
  alone := by simp
  stopped := by simp

theorem turn (hworld : Orderly world) {registry : Registry} {sweeper : Option Nat}
    (hthreads : registry.threads = world.registry.threads) (hphase : phase.isParked = false)
    (hcount : world.registry.stopped = registry.stopped + if (world.phase id).isParked then 1 else 0)
    (hflag : registry.suspend = registry.collecting)
    (hraised : registry.collecting = true ↔ phase = .collecting ∨ ∃ other, other ≠ id ∧ world.phase other = .collecting)
    (halone : phase = .collecting → ∀ other, world.phase other ≠ .collecting)
    (hstopped : ∀ other, sweeper = some other →
      other ≠ id ∧ world.phase other = .collecting ∧ registry.worldStopped other = true) :
    Orderly ({ world with registry, sweeper }.turn id phase) := by
  have hids : registry.ids = world.registry.ids := congrArg (map _) hthreads
  have hparked {other : Nat} {capture : Capture}
      (hother : ({ world with registry, sweeper }.turn id phase).phase other = .parked capture) :
      world.phase other = .parked capture := by
    by_cases hne : other = id
    · rw [hne, turn_phase_self] at hother
      rw [hother] at hphase
      cases hphase
    · rwa [turn_phase_of_ne hne] at hother
  refine ⟨?_, ?_, ?_, ?_, hflag, ?_, ?_, ?_⟩
  · rw [turn_registry, hids]
    exact hworld.nodup
  · intro other capture hother
    rw [turn_registry, hids]
    exact hworld.registered other capture (hparked hother)
  · intro thread hthread capture hother
    rw [turn_registry, hthreads] at hthread
    exact hworld.recorded thread hthread capture (hparked hother)
  · have hcounted := hworld.counted.symm.trans hcount
    rw [parkedCount, turn_registry, hids]
    by_cases hleaves : (world.phase id).isParked = true
    · obtain ⟨capture, hcapture⟩ : ∃ capture, world.phase id = .parked capture := by
        cases hid : world.phase id with
        | parked capture => exact ⟨capture, rfl⟩
        | _ => rw [hid] at hleaves; cases hleaves
      rw [if_pos hleaves, parkedCount, countP_of_turned
        (fun other => (({ world with registry, sweeper }.turn id phase).phase other).isParked) _ hworld.nodup
        (hworld.registered id capture hcapture) (by rwa [turn_phase_self]) hleaves
        fun other hne => by rw [turn_phase_of_ne hne]] at hcounted
      exact (Nat.succ.inj hcounted).symm
    · rw [if_neg hleaves] at hcounted
      refine hcounted.symm.trans (countP_congr fun other _ => ?_)
      by_cases hne : other = id
      · rw [hne, turn_phase_self, hphase, Bool.eq_false_iff.2 hleaves]
      · rw [turn_phase_of_ne hne]
  · rw [turn_registry, hraised]
    constructor
    · rintro (hcollecting | ⟨other, hne, hother⟩)
      · exact ⟨id, by rw [turn_phase_self, hcollecting]⟩
      · exact ⟨other, by rw [turn_phase_of_ne hne, hother]⟩
    · rintro ⟨other, hother⟩
      by_cases hne : other = id
      · rw [hne, turn_phase_self] at hother
        exact .inl hother
      · rw [turn_phase_of_ne hne] at hother
        exact .inr ⟨other, hne, hother⟩
  · intro first second hfirst hsecond
    by_cases hone : first = id <;> by_cases htwo : second = id
    · rw [hone, htwo]
    · rw [hone, turn_phase_self] at hfirst
      rw [turn_phase_of_ne htwo] at hsecond
      exact absurd hsecond (halone hfirst second)
    · rw [htwo, turn_phase_self] at hsecond
      rw [turn_phase_of_ne hone] at hfirst
      exact absurd hfirst (halone hsecond first)
    · rw [turn_phase_of_ne hone] at hfirst
      rw [turn_phase_of_ne htwo] at hsecond
      exact hworld.alone first second hfirst hsecond
  · intro other hsweeper
    obtain ⟨hne, hcollecting, hworldStopped⟩ := hstopped other hsweeper
    exact ⟨by rw [turn_phase_of_ne hne, hcollecting], hworldStopped⟩

theorem turn_idle (hworld : Orderly world) (hbefore : (world.phase id).isParked = false)
    (hidle : world.phase id ≠ .collecting) (hafter : phase.isParked = false) (hnot : phase ≠ .collecting) :
    Orderly (world.turn id phase) := by
  refine hworld.turn rfl hafter (by rw [hbefore]; rfl) hworld.flag ?_ (fun hphase => absurd hphase hnot) ?_
  · rw [hworld.raised]
    constructor
    · rintro ⟨other, hother⟩
      exact .inr ⟨other, fun hne => hidle (hne ▸ hother), hother⟩
    · rintro (hphase | ⟨other, -, hother⟩)
      · exact absurd hphase hnot
      · exact ⟨other, hother⟩
  · intro other hsweeper
    obtain ⟨hcollecting, hstopped⟩ := hworld.stopped other hsweeper
    exact ⟨fun hne => hidle (hne ▸ hcollecting), hcollecting, hstopped⟩

theorem register (hworld : Orderly world) (bottom : Nat) (hrunning : world.phase id = .running)
    (hunlocked : world.sweeper = none) : Orderly { world with registry := world.registry.register id bottom } := by
  have hnodup : (world.registry.register id bottom).ids.Nodup := by
    by_cases hmem : id ∈ world.registry.ids
    · rw [ids_register_of_mem hmem]
      exact hworld.nodup
    · rw [ids_register_of_not_mem hmem]
      refine nodup_append.2 ⟨hworld.nodup, nodup_singleton id, ?_⟩
      rintro other hother _ hid rfl
      rw [mem_singleton.1 hid] at hother
      exact hmem hother
  have hcount : (world.registry.register id bottom).ids.countP (fun id => (world.phase id).isParked) =
      world.parkedCount := by
    by_cases hmem : id ∈ world.registry.ids
    · rw [ids_register_of_mem hmem]
      rfl
    · rw [ids_register_of_not_mem hmem, countP_append]
      simp [parkedCount, hrunning, Phase.isParked]
  refine ⟨hnodup, ?_, ?_, ?_, ?_, ?_, hworld.alone, ?_⟩
  · intro other capture hother
    have hmem := hworld.registered other capture hother
    by_cases hid : id ∈ world.registry.ids
    · rwa [ids_register_of_mem hid]
    · rw [ids_register_of_not_mem hid]
      exact mem_append_left _ hmem
  · intro thread hthread capture hparked
    rcases mem_threads_register hthread with ⟨old, hold, hid, hcapture⟩ | ⟨hid, -⟩
    · rw [← hcapture]
      exact hworld.recorded old hold capture (by rw [hid]; exact hparked)
    · have hparked : world.phase thread.id = .parked capture := hparked
      rw [hid, hrunning] at hparked
      cases hparked
  · exact (register_stopped).trans (hworld.counted.trans hcount.symm)
  · simpa using hworld.flag
  · simpa using hworld.raised
  · intro other hsweeper
    rw [hunlocked] at hsweeper
    cases hsweeper

theorem unregister (hworld : Orderly world) (hrunning : world.phase id = .running) (hunlocked : world.sweeper = none) :
    Orderly { world with registry := world.registry.unregister id } := by
  have hcount : (world.registry.unregister id).ids.countP (fun id => (world.phase id).isParked) = world.parkedCount := by
    rw [ids_unregister, countP_filter]
    refine countP_congr fun other _ => ?_
    by_cases hother : other = id
    · simp [hother, hrunning, Phase.isParked]
    · simp [hother]
  refine ⟨?_, ?_, ?_, hworld.counted.trans hcount.symm, hworld.flag, hworld.raised, hworld.alone, ?_⟩
  · rw [ids_unregister]
    exact hworld.nodup.filter _
  · intro other capture hparked
    have hother : other ≠ id := by
      rintro rfl
      have hparked : world.phase other = .parked capture := hparked
      rw [hrunning] at hparked
      cases hparked
    rw [ids_unregister]
    exact mem_filter.2 ⟨hworld.registered other capture hparked, by simpa using hother⟩
  · intro thread hthread
    exact hworld.recorded thread (mem_filter.1 hthread).1
  · intro other hsweeper
    rw [hunlocked] at hsweeper
    cases hsweeper

theorem park (hworld : Orderly world) (capture : Capture) (hbefore : (world.phase id).isParked = false)
    (hidle : world.phase id ≠ .collecting) (hunlocked : world.sweeper = none) : Orderly (world.park id capture) := by
  by_cases hwaits : (world.registry.isRegistered id && world.registry.suspend) = true
  · have hmem : id ∈ world.registry.ids := Registry.isRegistered_iff.1 (Bool.and_eq_true_iff.1 hwaits).1
    have hids : (world.park id capture).registry.ids = world.registry.ids := by
      simp only [World.park, Registry.park, if_pos hwaits, turn_registry]
      exact Registry.ids_map fun thread => by split <;> rfl
    have hself : (world.park id capture).phase id = .parked capture := by
      simp [World.park, Registry.park, hwaits]
    have hother {other : Nat} (hne : other ≠ id) : (world.park id capture).phase other = world.phase other := by
      simp only [World.park, turn_phase_of_ne hne]
    have hregistry : (world.park id capture).registry.stopped = world.registry.stopped + 1 ∧
        (world.park id capture).registry.suspend = world.registry.suspend ∧
        (world.park id capture).registry.collecting = world.registry.collecting := by
      simp [World.park, Registry.park, hwaits]
    obtain ⟨hstopped, hsuspend, hcollects⟩ := hregistry
    have hcollecting (other : Nat) : (world.park id capture).phase other = .collecting ↔ world.phase other = .collecting := by
      by_cases hne : other = id
      · subst hne
        rw [hself]
        exact iff_of_false (by simp) hidle
      · rw [hother hne]
    refine ⟨by rw [hids]; exact hworld.nodup, ?_, ?_, ?_, ?_, ?_, ?_, ?_⟩
    · intro other captured hparked
      rw [hids]
      by_cases hne : other = id
      · rw [hne]
        exact hmem
      · exact hworld.registered other captured (by rw [← hother hne]; exact hparked)
    · intro thread hthread captured hparked
      simp only [World.park, Registry.park, if_pos hwaits, turn_registry] at hthread
      obtain ⟨old, hold, rfl⟩ := mem_map.1 hthread
      by_cases hne : old.id = id
      · rw [if_pos hne] at hparked ⊢
        rw [hne, hself] at hparked
        exact Phase.parked.inj hparked
      · rw [if_neg hne] at hparked ⊢
        rw [hother hne] at hparked
        exact hworld.recorded old hold captured hparked
    · rw [hstopped, hworld.counted, parkedCount, parkedCount, hids]
      refine (countP_of_turned _ _ hworld.nodup hmem hbefore (by rw [hself]; rfl) fun other hne => ?_).symm
      rw [hother hne]
    · rw [hsuspend, hcollects]
      exact hworld.flag
    · simp only [hcollects, hcollecting]
      exact hworld.raised
    · simp only [hcollecting]
      exact hworld.alone
    · intro other hsweeper
      rw [show (world.park id capture).sweeper = world.sweeper from rfl, hunlocked] at hsweeper
      cases hsweeper
  · have hpark : world.park id capture = world.turn id .running := by
      simp [World.park, Registry.park, hwaits]
    rw [hpark]
    exact hworld.turn_idle hbefore hidle rfl (by simp)

variable {capture : Capture}

section

variable (hworld : Orderly world)

include hworld

theorem stopped_pos (hparked : world.phase id = .parked capture) : 0 < world.registry.stopped := by
  rw [hworld.counted]
  exact countP_pos_iff.2 ⟨id, hworld.registered id capture hparked, by rw [hparked]; rfl⟩

theorem resume {registry : Registry} (hparked : world.phase id = .parked capture) (hunlocked : world.sweeper = none)
    (hresume : world.registry.resume? = some registry) : Orderly ({ world with registry }.turn id .running) := by
  have hpositive := hworld.stopped_pos hparked
  unfold resume? at hresume
  split at hresume
  · cases hresume
  · rename_i hlowered
    obtain rfl := Option.some.inj hresume
    -- The flag is down, so nobody collects.
    have hidle : world.registry.collecting ≠ true := by rwa [← hworld.flag]
    refine hworld.turn rfl rfl ?_ hworld.flag (iff_of_false hidle ?_) (by simp) (by simp [hunlocked])
    · rw [hparked]
      exact (Nat.sub_add_cancel hpositive).symm
    · rintro (hphase | ⟨other, -, hother⟩)
      · cases hphase
      · exact hidle (hworld.raised.2 ⟨other, hother⟩)

theorem request (hrequesting : world.phase id = .requesting capture) (hunlocked : world.sweeper = none) :
    Orderly (world.request id capture) := by
  unfold World.request beginCollection
  by_cases hcollecting : world.registry.collecting = true
  · simp only [if_pos hcollecting, Bool.false_eq_true, if_false]
    exact hworld.park capture (by rw [hrequesting]; rfl) (by rw [hrequesting]; simp) hunlocked
  · simp only [if_neg hcollecting, if_true]
    refine hworld.turn rfl rfl (by rw [hrequesting]; rfl) rfl (by simp) ?_ (by simp [hunlocked])
    intro _ other hother
    exact hcollecting (hworld.raised.2 ⟨other, hother⟩)

theorem sweep (hcollecting : world.phase id = .collecting) (hstopped : world.registry.worldStopped id = true) :
    Orderly { world with sweeper := some id } where
  nodup := hworld.nodup
  registered := hworld.registered
  recorded := hworld.recorded
  counted := hworld.counted
  flag := hworld.flag
  raised := hworld.raised
  alone := hworld.alone
  stopped := by
    rintro other hsweeper
    obtain rfl := Option.some.inj hsweeper
    exact ⟨hcollecting, hstopped⟩

theorem finish (hsweeping : world.sweeper = some id) :
    Orderly ({ world with registry := world.registry.endCollection, sweeper := none }.turn id .running) := by
  obtain ⟨hcollecting, -⟩ := hworld.stopped id hsweeping
  refine hworld.turn rfl rfl (by rw [hcollecting]; rfl) rfl (iff_of_false (by simp [endCollection]) ?_) (by simp)
    (by simp)
  rintro (hphase | ⟨other, hne, hother⟩)
  · cases hphase
  · exact hne (hworld.alone other id hother hcollecting)

/-- What one step keeps. -/
theorem step {after : World} (hstep : Step world after) : Orderly after := by
  cases hstep with
  | register id bottom hrunning hunlocked => exact hworld.register bottom hrunning hunlocked
  | unregister id hrunning hunlocked => exact hworld.unregister hrunning hunlocked
  | poll id capture hrunning =>
    split
    · exact hworld.turn_idle (by rw [hrunning]; rfl) (by rw [hrunning]; simp) rfl (by simp)
    · exact hworld
  | park id happroaching hunlocked =>
    exact hworld.park _ (by rw [happroaching]; rfl) (by rw [happroaching]; simp) hunlocked
  | resume id hparked hunlocked hlowered => exact hworld.resume hparked hunlocked hlowered
  | call id capture hrunning => exact hworld.turn_idle (by rw [hrunning]; rfl) (by rw [hrunning]; simp) rfl (by simp)
  | request id hrequesting hunlocked => exact hworld.request hrequesting hunlocked
  | sweep id hcollecting _ hstopped => exact hworld.sweep hcollecting hstopped
  | finish id hsweeping => exact hworld.finish hsweeping

/-- If a collector counts as many parked threads as there are others, all others are parked. -/
theorem parked_of_worldStopped (hcollecting : world.phase id = .collecting) (hstopped : world.registry.worldStopped id = true)
    {thread : RegisteredThread} (hthread : thread ∈ world.registry.threads) (hother : thread.id ≠ id) :
    world.phase thread.id = .parked thread.capture := by
  have hcount : world.registry.ids.countP (· != id) ≤ world.registry.ids.countP fun other => (world.phase other).isParked := by
    have hle : world.registry.others id ≤ world.registry.stopped := by simpa [worldStopped] using hstopped
    rwa [others_eq, hworld.counted] at hle
  have hself : ∀ other ∈ world.registry.ids, (world.phase other).isParked = true → (other != id) = true := by
    intro other _ hparked
    refine bne_iff_ne.2 fun heq => ?_
    rw [heq, hcollecting] at hparked
    cases hparked
  have hparked := forall_of_countP_le hself hcount thread.id (mem_map_of_mem hthread) (bne_iff_ne.2 hother)
  cases hphase : world.phase thread.id with
  | parked capture => rw [hworld.recorded thread hthread capture hphase]
  | _ => rw [hphase] at hparked; cases hparked

end

end Orderly

theorem Reachable.orderly {world : World} (hworld : Reachable world) : Orderly world := by
  induction hworld with
  | start => exact Orderly.start
  | step _ hstep ih => exact ih.step hstep

/-- In every world that can come about: at most one thread collects, and the flag is up exactly while one does; every
parked thread is registered, `stopped` is the number of parked threads among the registered ones, each of which is
registered once, and a thread that goes on takes one from it; and while a collector marks and sweeps, every other
registered thread is parked and its record is what it captured when it parked. -/
theorem stop_the_world {world : World} (hworld : Reachable world) :
    ((∀ first second, world.phase first = .collecting → world.phase second = .collecting → first = second) ∧
      (world.registry.suspend = true ↔ ∃ id, world.phase id = .collecting)) ∧
    ((world.registry.threads.map (·.id)).Nodup ∧
      (∀ id capture, world.phase id = .parked capture → id ∈ world.registry.threads.map (·.id)) ∧
      world.registry.stopped = (world.registry.threads.filter fun thread => (world.phase thread.id).isParked).length ∧
      ∀ id capture registry, world.phase id = .parked capture → world.registry.resume? = some registry →
        world.registry.stopped = registry.stopped + 1) ∧
    ∀ id, world.sweeper = some id → world.phase id = .collecting ∧
      ∀ thread ∈ world.registry.threads, thread.id ≠ id → world.phase thread.id = .parked thread.capture := by
  have horderly := hworld.orderly
  refine ⟨⟨horderly.alone, ?_⟩, ⟨horderly.nodup, horderly.registered, ?_, ?_⟩, ?_⟩
  · rw [horderly.flag]
    exact horderly.raised
  · rw [horderly.counted, World.parkedCount, Registry.ids, List.countP_map, List.countP_eq_length_filter]
    rfl
  · intro id capture registry hparked hresume
    have hpositive := horderly.stopped_pos hparked
    unfold Registry.resume? at hresume
    split at hresume
    · cases hresume
    · obtain rfl := Option.some.inj hresume
      exact (Nat.sub_add_cancel hpositive).symm
  · intro id hsweeper
    obtain ⟨hcollecting, hstopped⟩ := horderly.stopped id hsweeper
    exact ⟨hcollecting, fun thread hthread hother => horderly.parked_of_worldStopped hcollecting hstopped hthread hother⟩

/-- Thread 1 collects twice. Thread 2 parks for the first collection and has not woken when the second one starts. Thread
3 registers while the collector waits, wants to collect as well and parks; it wakes between the two and unregisters.
Thread 4 is not registered and runs on. -/
theorem stop_the_world_twice : ∃ world, Reachable world ∧ world.sweeper = some 1 ∧
    world.registry.threads.map (·.id) = [1, 2] ∧ world.phase 2 = .parked ⟨7, [5]⟩ ∧ world.phase 4 = .running ∧
    ∀ thread ∈ world.registry.threads, thread.id ≠ 1 → world.phase thread.id = .parked thread.capture := by
  have joined := (Reachable.start.step (.register 1 100 rfl rfl)).step (.register 2 200 rfl rfl)
  have begun := (joined.step (.call 1 ⟨3, []⟩ rfl)).step (.request 1 rfl rfl)
  have late := (begun.step (.register 3 300 rfl rfl)).step (.call 3 ⟨9, [6]⟩ rfl)
  have seen := (late.step (.poll 2 ⟨7, [5]⟩ rfl)).step (.poll 4 ⟨8, []⟩ rfl)
  have parked := ((seen.step (.park 2 rfl rfl)).step (.park 4 rfl rfl)).step (.request 3 rfl rfl)
  have swept := (parked.step (.sweep 1 rfl rfl (by decide))).step (.finish 1 rfl)
  have left := (swept.step (.resume 3 rfl rfl rfl)).step (.unregister 3 rfl rfl)
  have again := (left.step (.call 1 ⟨2, []⟩ rfl)).step (.request 1 rfl rfl)
  have world := again.step (.sweep 1 rfl rfl (by decide))
  exact ⟨_, world, rfl, rfl, rfl, rfl, ((stop_the_world world).2.2 1 rfl).2⟩

end Safepoint

end NanScript
