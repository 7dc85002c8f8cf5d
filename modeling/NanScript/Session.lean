import NanScript.Machine.Operation
import NanScript.Machine.Thread
import NanScript.Outcome
import NanScript.Text.Utf8

/-!
# Sessions

A session drives the runtime by hand: a script of steps over 32 variables, each of them a root. Values are shown as
texts. Lists, objects and raw blocks are shown by a label, a number in the order in which the session met them, so that
no address is ever seen.
-/

namespace NanScript

/-- A step of a script: an operation of the runtime, or a look at what it has made. Numbers are variables: first the target, if
there is one, then the sources. -/
inductive Step where
  | operate (operation : Operation)
  | reveal (source : Nat)
  | fill (list count : Nat)
  | listInfo (list : Nat)
  | dump (source : Nat)
  | dumpSorted (list : Nat)
  | objectFill (object : Nat) (stem : String) (count : Nat)
  | objectInfo (object : Nat)
  | alloc (target : Nat) (size : Nat)
  | garbage (size count : Nat)
  | poke (block position source : Nat)
  | peek (target block position : Nat)
  | tag (target block offset : Nat) (top : Nat)
  | collect
  | settle
  | stats
  | thread (work : Routine) (source : Nat)
  | join (target number : Nat)
  | threadNull (target : Nat)
  | joinValue (target source : Nat)
  | spin (target source count : Nat)
  | together (work : Routine) (source count : Nat)
  | pushTogether (list threads count : Nat)
  deriving Repr, Inhabited

inductive Dump where
  | plain (text : String)
  | list (text : String) (items : List Dump)
  deriving Repr, Inhabited

inductive Answer where
  | text (text : String)
  | texts (list : List String)
  | number (number : Int)
  | numbers (list : List Int)
  | room (length capacity : Nat)
  | dump (dump : Dump)
  | swept (blocks bytes : Nat)
  | stats (blocks bytes : Nat)
  | stopped (all : Bool) (text : String)
  deriving Repr, Inhabited

structure Session where
  machine : Machine := { globals := Array.replicate 32 .null }
  labels : Std.HashMap UInt64 String := {}
  labelled : Nat := 0
  handles : Array Int32 := #[]
  deriving Inhabited

namespace Session

abbrev Script := EStateM RuntimeError Session

def lift {α : Type} (action : Run α) : Script α := fun session =>
  match action session.machine with
  | .ok result machine => .ok result { session with machine }
  | .error problem machine => .error problem { session with machine }

/-! ### Labels and texts -/

def label (word : UInt64) (kind : String) : Script Unit :=
  modify fun session =>
    let number := session.labelled + 1
    { session with labels := session.labels.insert word s!"{kind}#{number}", labelled := number }

def meet (value : Value) : Script Unit := do
  if (← get).labels.contains value.bits then return
  match value.kind with
  | .list _ => label value.bits "list"
  | .object _ => label value.bits "object"
  | _ => return

def describe (machine : Machine) (value : Value) : String :=
  match value.kind with
  | .float bits => if Binary64.decode bits = .nan then "float:nan" else s!"float:{Text.hex64 bits}"
  | .null => "null"
  | .bool value => if value then "true" else "false"
  | .int number => s!"int:{number.toInt}"
  | .str address => if address = 0 then "str:<nullptr>" else s!"str:{Text.ofBytes (machine.text address)}"
  | .object _ => "object"
  | .list _ => "list"

def textOf (value : Value) : Script String := do
  meet value
  let session ← get
  return session.labels.getD value.bits (describe session.machine value)

def result (target : Nat) (value : Value) : Script Answer := do
  lift (Run.store target value)
  return .text (← textOf value)

def dumpValue : Nat → Value → Script Dump
  | 0, value => return .plain (← textOf value)
  | depth + 1, value => do
    let text ← textOf value
    match Run.listHeader? value with
    | some _ =>
      let items ← lift (Run.listItems value)
      return .list text (← items.mapM (dumpValue depth))
    | none => return .plain text

/-! ### Steps -/

def load (source : Nat) : Script Value := lift (Run.load source)

def listRoom (list : Value) : Run (Nat × Nat) := do
  let header ← Run.listHeader list
  return (← Run.listLength header, ← Run.listCapacity header)

def objectRoom (object : Value) : Run (Nat × Nat) := do
  match Run.objectHeader? object with
  | some header => return (← Run.objectCount header, ← Run.objectCapacity header)
  | none => throw .getOnNull

def start (work : Routine) (argument : Value) : Script Nat := do
  let handle ← lift (Run.spawn work argument)
  modifyGet fun session => (session.handles.size, { session with handles := session.handles.push handle })

def together (work : Routine) (argument : Value) (count : Nat) : Script (List String) := do
  let handles ← (List.range count).mapM fun _ => lift (Run.spawn work argument)
  let values ← handles.mapM fun handle => lift (Run.join handle)
  values.mapM textOf

/-- How the result of an operation is told. -/
def reply (value : Value) : Operation → Script Answer
  | .truthy _ => return .number value.truthy.toNat
  | .push .. => return .text "ok"
  | _ => return .text (← textOf value)

def step : Step → Script Answer
  | .operate operation => do reply (← lift operation.perform) operation
  | .reveal source => return .text (← textOf (← load source))
  | .fill list count => do
    let value ← load list
    let _ ← lift (Run.listHeader value)
    lift (Run.times count fun number => Run.listPush value (Value.ofInt number))
    return .text "ok"
  | .listInfo list => do
    let (length, capacity) ← lift (listRoom (← load list))
    return .room length capacity
  | .dump source => return .dump (← dumpValue 4 (← load source))
  | .dumpSorted list => do
    let items ← lift (Run.listItems (← load list))
    let numbers := items.filterMap fun item => item.int?.map Int32.toInt
    return .numbers (numbers.mergeSort fun a b => decide (a ≤ b))
  | .objectFill object stem count => do
    let value ← load object
    lift (Run.times count fun number => do
      let key ← Run.internText (Text.utf8 s!"{stem}{number}")
      let _ ← Run.objectSet value (some key) (Value.ofInt number))
    return .text "ok"
  | .objectInfo object => do
    let (length, capacity) ← lift (objectRoom (← load object))
    return .room length capacity
  | .alloc target size => do
    let address ← lift (Run.allocate size.toUInt64)
    label address.toUInt64 "raw"
    result target ⟨address.toUInt64⟩
  | .garbage size count => do
    lift (Run.times count fun _ => do let _ ← Run.allocate size.toUInt64)
    return .text "ok"
  | .poke block position source => do
    lift (Run.write (← load block).bits.toNat position (← load source).bits)
    return .text "ok"
  | .peek target block position => do
    let word ← lift (Run.read (← load block).bits.toNat position)
    result target ⟨word⟩
  | .tag target block offset top => do
    let base ← load block
    let word := (base.bits + offset.toUInt64) ||| (top.toUInt64 <<< 48)
    let name ← textOf base
    modify fun session =>
      { session with labels := session.labels.insert word s!"{name}+{offset}:{Text.hex top}" }
    result target ⟨word⟩
  | .collect => do
    let swept ← lift Run.collect
    return .swept swept.blocks swept.bytes
  | .settle => do
    let _ ← lift Run.collect
    return .text "null"
  | .stats => do
    let heap := (← get).machine.heap
    return .stats heap.blocks.size heap.bytes.toNat
  | .thread work source => return .number (← start work (← load source))
  | .join target number => do
    let handle := (← get).handles.getD number 0
    result target (← lift (Run.join handle))
  | .threadNull target => result target .null
  | .joinValue target source => do result target (← lift (Run.joinValue (← load source)))
  | .spin target source count => do
    let value ← load source
    let handles ← (List.range count).mapM fun _ => lift (Run.spawn .identity value)
    let all ← lift (Run.collectParked handles)
    let values ← handles.mapM fun handle => lift (Run.join handle)
    lift (Run.store target value)
    return .stopped (all && values.all (· == value)) (← textOf value)
  | .together work source count => return .texts (← together work (← load source) count)
  | .pushTogether list threads count => do
    let value ← load list
    let _ ← lift (Run.listHeader value)
    return .texts (← together (.pushAll count) value threads)

/-- Take steps one after the other. An error is the answer of its step, and the next steps are taken still. -/
def run : List Step → Session → List (Except RuntimeError Answer) × Session
  | [], session => ([], session)
  | first :: rest, session =>
    match step first session with
    | .ok answer session =>
      let (answers, session) := run rest session
      (.ok answer :: answers, session)
    | .error problem session =>
      let (answers, session) := run rest session
      (.error problem :: answers, session)

def runToError : List Step → Session → Option RuntimeError × Session
  | [], session => (none, session)
  | first :: rest, session =>
    match step first session with
    | .ok _ session => runToError rest session
    | .error problem session => (some problem, session)

def output (session : Session) : String := Text.ofBytes session.machine.printed.toList

end Session

def execute (steps : List Step) : Outcome :=
  let (problem, session) := Session.runToError steps {}
  match problem with
  | none => { exitCode := 0, stdout := session.output, stderr := "" }
  | some problem => { exitCode := 1, stdout := session.output, stderr := s!"Runtime Error: {problem.message}\n" }

end NanScript
