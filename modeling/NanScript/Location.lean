import NanScript.Interval

/-!
# Locations of local variables

Intervals are taken in order of their start. Before one is placed, the registers of those that ended before it are
free again; it then takes the first free register, or the next slot of the frame when all are held. The registers are
those that a called function leaves alone, so a local keeps its value through every call, and the function itself must
save the ones it uses.
-/

namespace NanScript

inductive Register where
  | rax | rdi | rsi | rdx | rcx | r8 | r9 | r10 | rbx | r12 | r13 | r14 | r15 | rbp | rsp
  deriving DecidableEq, Repr, Inhabited

namespace Register

def name : Register → String
  | rax => "rax" | rdi => "rdi" | rsi => "rsi" | rdx => "rdx" | rcx => "rcx" | r8 => "r8" | r9 => "r9"
  | r10 => "r10" | rbx => "rbx" | r12 => "r12" | r13 => "r13" | r14 => "r14" | r15 => "r15"
  | rbp => "rbp" | rsp => "rsp"

/-- The registers that hold locals, in the order of preference. A called function keeps them. -/
def pool : List Register := [rbx, r12, r13, r14, r15]

def arguments : List Register := [rdi, rsi, rdx, rcx, r8, r9]

end Register

inductive Location where
  | register (register : Register)
  | frame (offset : Nat)
  deriving DecidableEq, Repr, Inhabited

namespace Location

def render : Location → String
  | register r => r.name
  | frame offset => s!"qword [rbp-{offset}]"

end Location

/-! ### Linear scan -/

/-- A register, or the number of a slot, while the number of saved registers is not yet known. -/
inductive Placement where
  | register (register : Register)
  | slot (index : Nat)
  deriving DecidableEq, Repr, Inhabited

namespace Placement

/-- Slots lie below the saved registers. -/
def location (saved : Nat) : Placement → Location
  | register r => .register r
  | slot index => .frame (8 * saved + 8 * (index + 1))

def register? : Placement → Option Register
  | register r => some r
  | slot _ => none

/-- Note that some registers of the pool are free again. -/
def release (free : Array Bool) (registers : List Register) : Array Bool :=
  registers.foldl (fun free r => free.setIfInBounds (Register.pool.idxOf r) true) free

/-- Place intervals one after the other. `active` holds the placed ones whose registers are not free again, and `free`
has a flag for each register of the pool. -/
def assign (active : List (Interval × Register)) (free : Array Bool) (slots : Nat) :
    List Interval → List (Interval × Placement)
  | [] => []
  | interval :: rest =>
    let (held, expired) := active.partition fun (other, _) => interval.start ≤ other.stop
    let free := release free (expired.map Prod.snd)
    match free.findIdx? id with
    | some position =>
      let r := Register.pool.getD position default
      (interval, register r) :: assign ((interval, r) :: held) (free.setIfInBounds position false) slots rest
    | none => (interval, slot slots) :: assign held free (slots + 1) rest

end Placement

structure Allocation where
  assigned : List (Interval × Location) := []
  saved : List Register := []
  slots : Nat := 0
  deriving DecidableEq, Repr, Inhabited

namespace Allocation

/-- The location of a variable: the one assigned last, should it have several intervals. -/
def location? (allocation : Allocation) (var : Nat) : Option Location :=
  ((allocation.assigned.filter fun (interval, _) => interval.var == var).getLast?).map Prod.snd

/-- The bytes reserved below the saved registers: at least 32, and with the saved registers a multiple of 16. -/
def frameSize (allocation : Allocation) : Nat :=
  max 32 ((allocation.slots + 1) / 2 * 16) + if allocation.saved.length % 2 == 1 then 8 else 0

end Allocation

def linearScan (intervals : List Interval) : Allocation :=
  let placed := Placement.assign [] (Array.replicate Register.pool.length true) 0 (Interval.sort intervals)
  let used := placed.filterMap fun (_, placement) => placement.register?
  let saved := Register.pool.filter used.contains
  { assigned := placed.map fun (interval, placement) => (interval, placement.location saved.length)
    saved
    slots := placed.length - used.length }

end NanScript
