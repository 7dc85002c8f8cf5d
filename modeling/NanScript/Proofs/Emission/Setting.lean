import NanScript.Proofs.Emission.Evaluator
import NanScript.Proofs.Emission.Marks

/-!
# Code in its frame

The body of a function runs above its frame. From the bottom there are the words of the callers and the saved registers,
which the body leaves alone; then the words that hold locals; then the words that wait while an expression is computed.
`Settled` ties such a state of the processor to a memory of the evaluator. `Leads` says that a run comes to some state, and
each rule below says what one instruction, or one runtime call, contributes to that.
-/

namespace NanScript

open Register Processor Function List

/-- Locations that the code of a function can work with. Different locals have different ones; a register is one that the
function saves, and a word is one of the frame, which lies above the saved registers. -/
structure Allocation.Proper (allocation : Allocation) (words : Nat) : Prop where
  injective : ∀ {a b : Nat} {location : Location}, allocation.location? a = some location →
    allocation.location? b = some location → a = b
  nodup : allocation.saved.Nodup
  pool : ∀ r ∈ allocation.saved, r ∈ pool
  register : ∀ {id : Nat} {r : Register}, allocation.location? id = some (.register r) → r ∈ allocation.saved
  frame : ∀ {id offset : Nat}, allocation.location? id = some (.frame offset) →
    offset % 8 = 0 ∧ 8 * allocation.saved.length < offset ∧ offset ≤ 8 * (allocation.saved.length + words)

/-- The run of one function. -/
structure Setting where
  world : World
  noise : Noise
  outline : Outline
  allocation : Allocation
  /-- How many words of the frame are for locals. -/
  words : Nat
  /-- The code of the function. -/
  whole : Code
  /-- The height at which the frame starts. -/
  base : Nat
  /-- The words that lie below the locals. -/
  below : Nat → Word
  /-- The registers that the function does not use. -/
  kept : Register → Word
  proper : allocation.Proper words
  unique : ∀ key, Code.uses key whole ≤ 1
  aligned : (base + allocation.saved.length + words) % 2 = 0

namespace Setting

/-- Where the words of the locals begin, and where they end. -/
def low (s : Setting) : Nat := s.base + s.allocation.saved.length

def high (s : Setting) : Nat := s.low + s.words

theorem high_mod_two (s : Setting) : s.high % 2 = 0 := s.aligned

/-- The word at a location. -/
def word (s : Setting) (p : Processor) : Location → Word
  | .register r => p.registers r
  | .frame offset => p.stack (s.base + offset / 8 - 1)

theorem frame_mem {s : Setting} {id offset : Nat} (hlocation : s.allocation.location? id = some (.frame offset)) :
    s.low ≤ s.base + offset / 8 - 1 ∧ s.base + offset / 8 - 1 < s.high := by
  obtain ⟨haligned, hlow, hhigh⟩ := s.proper.frame hlocation
  unfold high low
  omega

end Setting

/-- The words lie on the stack from an index on, the first on top. -/
def Stacked (stack : Nat → Word) (start : Nat) : List Word → Prop
  | [] => True
  | word :: rest => stack (start + rest.length) = word ∧ Stacked stack start rest

variable {stack : Nat → Word} {start : Nat} {words : List Word}

theorem Stacked.congr {stack' : Nat → Word} (hstacked : Stacked stack start words)
    (hsame : ∀ index, start ≤ index → index < start + words.length → stack' index = stack index) :
    Stacked stack' start words := by
  induction words with
  | nil => trivial
  | cons word rest ih =>
    refine ⟨?_, ih hstacked.2 ?_⟩
    · rw [hsame _ (Nat.le_add_right _ _) (Nat.add_lt_add_left (Nat.lt_succ_self _) _)]
      exact hstacked.1
    · intro index hstart hlast
      exact hsame index hstart (Nat.lt_succ_of_lt hlast)

variable {front back : List Word}

theorem Stacked.of_append (hstacked : Stacked stack start (front ++ back)) : Stacked stack start back := by
  induction front with
  | nil => exact hstacked
  | cons word rest ih => exact ih hstacked.2

/-- Whatever lies above the words can be seen as more of them. -/
theorem Stacked.extend (hstacked : Stacked stack start words) (count : Nat) :
    ∃ more : List Word, more.length = count ∧ Stacked stack start (more ++ words) := by
  induction count with
  | zero => exact ⟨[], rfl, hstacked⟩
  | succ count ih =>
    obtain ⟨more, hlength, hmore⟩ := ih
    exact ⟨stack (start + (more ++ words).length) :: more, congrArg Nat.succ hlength, rfl, hmore⟩

theorem Stacked.map_range (hstacked : Stacked stack start (front ++ back)) :
    ((range front.length).map fun position => stack (start + (front ++ back).length - 1 - position)) = front := by
  induction front with
  | nil => rfl
  | cons word rest ih =>
    have hrest := ih hstacked.2
    rw [length_cons, range_succ_eq_map, map_cons, map_map]
    congr 1
    · exact hstacked.1
    · refine (map_congr_left ?_).trans hrest
      intro position _
      show stack (start + ((rest ++ back).length + 1) - 1 - (position + 1)) = _
      congr 1
      omega

/-- The processor runs the body, with the memory of the evaluator. -/
structure Settled (s : Setting) (locals : List Nat) (waiting : List Word) (memory : Memory) (p : Processor) : Prop where
  history : p.history = memory.history
  globals : p.globals = memory.globals
  pointer : p.registers .rbp = .height s.base
  height : p.height = s.high + waiting.length
  waiting : Stacked p.stack s.high waiting
  below : ∀ index < s.low, p.stack index = s.below index
  kept : ∀ r ∈ pool, r ∉ s.allocation.saved → p.registers r = s.kept r
  locals : ∀ id ∈ locals, ∀ location, s.allocation.location? id = some location → s.word p location = memory.locals id

/-- A run comes to a state with `post`, in no less than that many steps. -/
def Leads (s : Setting) (least : Nat) (p : Processor) (post : Processor → Prop) : Prop :=
  ∃ steps q, least ≤ steps ∧ p.run s.world s.noise s.whole steps = some q ∧ post q

namespace Leads

variable {s : Setting} {least less : Nat} {p q : Processor} {post post' : Processor → Prop}

theorem here (hpost : post p) : Leads s 0 p post := ⟨0, p, Nat.le_refl _, rfl, hpost⟩

theorem of_step (hstep : p.step s.world s.noise s.whole = some q) (hleads : Leads s least q post) :
    Leads s (least + 1) p post := by
  obtain ⟨steps, last, hleast, hrun, hpost⟩ := hleads
  refine ⟨steps + 1, last, Nat.succ_le_succ hleast, ?_, hpost⟩
  show p.step s.world s.noise s.whole >>= _ = some last
  rw [hstep]
  exact hrun

theorem sooner (hleads : Leads s least p post) (hless : less ≤ least) : Leads s less p post := by
  obtain ⟨steps, last, hleast, hrun⟩ := hleads
  exact ⟨steps, last, Nat.le_trans hless hleast, hrun⟩

theorem step (hstep : p.step s.world s.noise s.whole = some q) (hleads : Leads s least q post) : Leads s least p post :=
  (of_step hstep hleads).sooner (Nat.le_succ _)

end Leads

variable {world : World} {p : Processor} {noise : Noise} {whole : Code}

theorem Processor.run_add {q : Processor} {steps more : Nat} (hrun : p.run world noise whole steps = some q) :
    p.run world noise whole (steps + more) = q.run world noise whole more := by
  induction steps generalizing p with
  | zero =>
    obtain rfl := Option.some.inj hrun
    rw [Nat.zero_add]
  | succ steps ih =>
    rw [Nat.succ_add]
    obtain ⟨middle, hstep, hrun⟩ := Option.bind_eq_some_iff.1 hrun
    show p.step world noise whole >>= _ = _
    rw [hstep]
    exact ih hrun

variable {s : Setting}

theorem Leads.trans {least : Nat} {post post' : Processor → Prop} (hleads : Leads s 0 p post)
    (hnext : ∀ q, post q → Leads s least q post') : Leads s least p post' := by
  obtain ⟨steps, q, -, hrun, hpost⟩ := hleads
  obtain ⟨more, last, hleast, hrun', hpost'⟩ := hnext q hpost
  refine ⟨steps + more, last, Nat.le_trans hleast (Nat.le_add_left _ _), ?_, hpost'⟩
  rw [run_add hrun]
  exact hrun'

/-! ### Instructions -/

variable {r : Register}

theorem Register.not_mem_scratch (hpool : r ∈ pool) : r ∉ scratch := by
  revert r
  decide

theorem Register.ne_rsp (hpool : r ∈ pool) : r ≠ .rsp := by
  revert r
  decide

theorem Processor.read_register (hr : r ≠ .rsp) : p.read (.register r) = some (p.registers r) := by
  cases r with
  | rsp => exact absurd rfl hr
  | _ => rfl

theorem Processor.write_register {word : Word} (hr : r ≠ .rsp) : p.write (.register r) word = some (p.set r word) := by
  cases r with
  | rsp => exact absurd rfl hr
  | _ => rfl

/-- The state that has taken the next line, but not yet executed it. -/
def Processor.next (p : Processor) (rest : Code) : Processor := { p with rest, clock := p.clock + 1 }

theorem Processor.taken_next (p : Processor) (rest : Code) (condition : Condition) :
    (p.next rest).taken condition = p.taken condition := rfl

variable {rest : Code} {instruction : Instruction}

theorem Processor.step_instruction (hrest : p.rest = .instruction instruction :: rest) :
    p.step world noise whole = (p.next rest).execute world noise whole instruction := by
  unfold step
  rw [hrest]
  rfl

namespace Settled

variable {s : Setting} {locals : List Nat} {waiting : List Word} {memory : Memory} {p q : Processor} {rest : Code}
  {least : Nat} {post : Processor → Prop} {label : Label} {condition : Condition}

theorem step_jump {target : Code} (hrest : p.rest = .instruction (.jump condition label) :: rest)
    (htaken : p.taken condition = true) (htarget : .label label :: target <:+ s.whole) :
    p.step s.world s.noise s.whole = some (p.next target) := by
  rw [step_instruction hrest]
  show (if (p.next rest).taken condition = true then (Code.seek label s.whole).map _ else _) = _
  rw [taken_next, if_pos htaken, Code.seek_of_suffix s.unique htarget]
  rfl

/-- A state in which all is kept but scratch registers and what lies above the waiting words. -/
theorem transfer {front : List Word} {memory' : Memory} (h : Settled s locals (front ++ waiting) memory p)
    (hhistory : q.history = memory'.history) (hglobals : q.globals = memory'.globals) (hlocals : memory'.locals = memory.locals)
    (hheight : q.height = p.height) (hstack : ∀ index < s.high + waiting.length, q.stack index = p.stack index)
    (hregisters : ∀ r, r ∉ scratch → q.registers r = p.registers r) :
    ∃ spoiled, spoiled.length = front.length ∧ Settled s locals (spoiled ++ waiting) memory' q := by
  have hwaiting : Stacked q.stack s.high waiting := h.waiting.of_append.congr fun index _ hindex => hstack index hindex
  obtain ⟨spoiled, hspoiled, hstacked⟩ := hwaiting.extend front.length
  have hlow : s.low ≤ s.high := Nat.le_add_right _ _
  refine ⟨spoiled, hspoiled, hhistory, hglobals, ?_, ?_, hstacked, ?_, ?_, ?_⟩
  · rw [hregisters .rbp (by decide)]
    exact h.pointer
  · rw [hheight, h.height, length_append, length_append, hspoiled]
  · intro index hindex
    rw [hstack index (by omega)]
    exact h.below index hindex
  · intro r hpool hsaved
    rw [hregisters r (not_mem_scratch hpool)]
    exact h.kept r hpool hsaved
  · intro id hid location hlocation
    rw [hlocals, ← h.locals id hid location hlocation]
    cases location with
    | register r => exact hregisters r (not_mem_scratch (s.proper.pool r (s.proper.register hlocation)))
    | frame offset => exact hstack _ (Nat.lt_of_lt_of_le (Setting.frame_mem hlocation).2 (Nat.le_add_right _ _))

section

variable (h : Settled s locals waiting memory p)

include h

/-- Scratch registers, the flag and what lies above the stack do not matter. -/
theorem congr (hhistory : q.history = p.history) (hglobals : q.globals = p.globals) (hheight : q.height = p.height)
    (hstack : ∀ index < p.height, q.stack index = p.stack index)
    (hregisters : ∀ r, r ∉ scratch → q.registers r = p.registers r) : Settled s locals waiting memory q := by
  have hnone : Settled s locals ([] ++ waiting) memory p := h
  obtain ⟨spoiled, hspoiled, hsettled⟩ := hnone.transfer (hhistory.trans h.history) (hglobals.trans h.globals) rfl hheight
    (fun index hindex => hstack index (h.height ▸ hindex)) hregisters
  obtain rfl := length_eq_zero_iff.1 hspoiled
  exact hsettled

theorem fewer {locals' : List Nat} (hfewer : ∀ id ∈ locals', id ∈ locals) : Settled s locals' waiting memory p :=
  { h with locals := fun id hid => h.locals id (hfewer id hid) }

theorem set (target : Register) (word : Word) (hrest : p.rest = .instruction instruction :: rest)
    (htarget : target ∈ scratch)
    (hexecute : (p.next rest).execute s.world s.noise s.whole instruction = some ((p.next rest).set target word))
    (hnext : ∀ q, q.rest = rest → q.zero = p.zero → q.registers = update p.registers target word →
      Settled s locals waiting memory q → Leads s least q post) : Leads s least p post := by
  refine Leads.step ((step_instruction hrest).trans hexecute) (hnext _ rfl rfl rfl ?_)
  refine h.congr rfl rfl rfl (fun _ _ => rfl) ?_
  intro r hr
  have hother : r ≠ target := by
    intro hsame
    exact hr (hsame ▸ htarget)
  exact update_of_ne hother _ _

theorem text {target : Register} {number : Nat} {bytes : List UInt8}
    (hrest : p.rest = .instruction (.textAddress target number) :: rest) (htarget : target ∈ scratch)
    (htext : Code.lookup number s.whole = some bytes)
    (hnext : ∀ q, q.rest = rest → q.zero = p.zero → q.registers = update p.registers target (.text bytes) →
      Settled s locals waiting memory q → Leads s least q post) : Leads s least p post := by
  refine h.set target _ hrest htarget ?_ hnext
  show (do return (p.next rest).set target (.text (← Code.lookup number s.whole)) : Option Processor) = _
  rw [htext]
  rfl

theorem push {source : Register} (hrest : p.rest = .instruction (.push source) :: rest)
    (hnext : ∀ q, q.rest = rest → q.registers = p.registers →
      Settled s locals (p.registers source :: waiting) memory q → Leads s least q post) : Leads s least p post := by
  refine Leads.step (step_instruction hrest) (hnext _ rfl rfl ?_)
  have hwritten : Settled s locals waiting memory { p with stack := update p.stack p.height (p.registers source) } :=
    h.congr rfl rfl rfl (fun _ hindex => update_of_ne (Nat.ne_of_lt hindex) _ _) fun _ _ => rfl
  refine { hwritten with height := congrArg Nat.succ h.height, waiting := ⟨?_, hwritten.waiting⟩ }
  rw [← h.height]
  exact update_self _ _ _

theorem skip (hrest : p.rest = .label label :: rest)
    (hnext : ∀ q, q.rest = rest → q.registers = p.registers → Settled s locals waiting memory q → Leads s least q post)
    : Leads s least p post := by
  have hstep : p.step s.world s.noise s.whole = some (p.next rest) := by
    unfold step
    rw [hrest]
    rfl
  exact Leads.step hstep (hnext _ rfl rfl (h.congr rfl rfl rfl (fun _ _ => rfl) fun _ _ => rfl))

theorem jump {target : Code} (hrest : p.rest = .instruction (.jump condition label) :: rest) (htaken : p.taken condition = true)
    (htarget : .label label :: target <:+ s.whole)
    (hnext : ∀ q, q.rest = target → q.registers = p.registers → Settled s locals waiting memory q → Leads s least q post) :
    Leads s least p post :=
  Leads.step (step_jump hrest htaken htarget)
    (hnext _ rfl rfl (h.congr rfl rfl rfl (fun _ _ => rfl) fun _ _ => rfl))

theorem pass (hrest : p.rest = .instruction (.jump condition label) :: rest) (htaken : p.taken condition = false)
    (hnext : ∀ q, q.rest = rest → q.registers = p.registers → Settled s locals waiting memory q → Leads s least q post) :
    Leads s least p post := by
  have hstep : p.step s.world s.noise s.whole = some (p.next rest) := by
    rw [step_instruction hrest]
    show (if (p.next rest).taken condition = true then _ else _) = _
    rw [taken_next, htaken, if_neg Bool.false_ne_true]
  exact Leads.step hstep (hnext _ rfl rfl (h.congr rfl rfl rfl (fun _ _ => rfl) fun _ _ => rfl))

/-- Whether a collection is asked for becomes the flag. -/
theorem request (hrest : p.rest = .instruction .pollRequest :: rest)
    (hnext : ∀ q, q.rest = rest → q.registers = p.registers → q.zero = !s.world.suspends memory.looked.history →
      Settled s locals waiting memory.looked q → Leads s least q post) : Leads s least p post := by
  have hhistory : p.history ++ [.poll] = memory.looked.history := congrArg (· ++ [Event.poll]) h.history
  refine Leads.step (step_instruction hrest) (hnext _ rfl rfl ?_ { h with history := hhistory })
  show (!s.world.suspends (p.history ++ [.poll])) = _
  rw [hhistory]

theorem next (rest : Code) : Settled s locals waiting memory (p.next rest) :=
  h.congr rfl rfl rfl (fun _ _ => rfl) fun _ _ => rfl

theorem reserve (hrest : p.rest = .instruction (.reserve 8) :: rest)
    (hnext : ∀ q word, q.rest = rest → q.registers = p.registers → Settled s locals (word :: waiting) memory q →
      Leads s least q post) : Leads s least p post := by
  refine Leads.step (step_instruction hrest) (hnext _ (p.stack (s.high + waiting.length)) rfl rfl ?_)
  exact { h with height := congrArg Nat.succ h.height, waiting := ⟨rfl, h.waiting⟩ }

end

variable {word : Word}

theorem top (h : Settled s locals (word :: waiting) memory p) (hrest : p.rest = .instruction (.move rdi .top) :: rest)
    (hnext : ∀ q, q.rest = rest → q.registers = update p.registers .rdi word →
      Settled s locals (word :: waiting) memory q → Leads s least q post) : Leads s least p post := by
  refine h.set .rdi word hrest (by decide) ?_ fun q hrest _ => hnext q hrest
  have hheight : p.height = s.high + (waiting.length + 1) := h.height
  have hindex : (p.next rest).index? .top = some (s.high + waiting.length) := by
    show (if 0 < p.height then some (p.height - 1) else none) = _
    rw [if_pos (by omega), hheight]
    rfl
  show ((p.next rest).index? .top).map p.stack >>= _ = _
  rw [hindex, Option.map_some, h.waiting.1]
  rfl

variable {front : List Word}

theorem lower (h : Settled s locals (front ++ waiting) memory p) (hq : q = { p with height := p.height - front.length })
    : Settled s locals waiting memory q := by
  subst hq
  refine { h with height := ?_, waiting := h.waiting.of_append }
  show p.height - front.length = _
  rw [h.height, length_append]
  omega

theorem pop {target : Register} (h : Settled s locals (word :: waiting) memory p)
    (hrest : p.rest = .instruction (.pop target) :: rest) (htarget : target ∈ scratch)
    (hnext : ∀ q, q.rest = rest → q.zero = p.zero → q.registers = update p.registers target word →
      Settled s locals waiting memory q → Leads s least q post) : Leads s least p post := by
  have hheight : p.height = s.high + (waiting.length + 1) := h.height
  have hword : p.stack (p.height - 1) = word := by
    rw [hheight]
    exact h.waiting.1
  have hexecute : p.step s.world s.noise s.whole =
      some { (p.next rest).set target word with height := p.height - 1 } := by
    rw [step_instruction hrest]
    show (if 0 < p.height then some { (p.next rest).set target (p.stack (p.height - 1)) with height := p.height - 1 }
      else none) = _
    rw [if_pos (by omega), hword]
  refine Leads.step hexecute (hnext _ rfl rfl rfl ?_)
  have hfront : Settled s locals ([word] ++ waiting) memory p := h
  have hpopped : Settled s locals waiting memory { p with height := p.height - 1 } := hfront.lower rfl
  refine hpopped.congr rfl rfl rfl (fun _ _ => rfl) ?_
  intro r hr
  have hother : r ≠ target := by
    intro hsame
    exact hr (hsame ▸ htarget)
  exact update_of_ne hother _ _

theorem release {bytes : Nat} (h : Settled s locals (front ++ waiting) memory p)
    (hrest : p.rest = .instruction (.release bytes) :: rest) (hbytes : bytes = 8 * front.length)
    (hnext : ∀ q, q.rest = rest → q.registers = p.registers → Settled s locals waiting memory q → Leads s least q post)
    : Leads s least p post := by
  have hheight : p.height = s.high + (front ++ waiting).length := h.height
  rw [length_append] at hheight
  have hwords : bytes / 8 = front.length := by omega
  have hstep : p.step s.world s.noise s.whole =
      some { p.next rest with height := p.height - front.length, zero := s.noise.zero (p.next rest).clock } := by
    rw [step_instruction hrest]
    show (if bytes / 8 ≤ p.height then _ else none) = _
    rw [hwords, if_pos (by omega)]
    rfl
  refine Leads.step hstep (hnext _ rfl rfl ?_)
  have hlower : Settled s locals waiting memory { p with height := p.height - front.length } := h.lower rfl
  exact hlower.congr rfl rfl rfl (fun _ _ => rfl) fun _ _ => rfl

/-! ### Calls -/

variable {passed : List Word} {total : Nat}

section

variable {arguments : List Word} (h : Settled s locals (passed ++ waiting) memory p) (target : Word)
  (hpassed : passed.length = total - Register.arguments.length) (heven : (passed ++ waiting).length % 2 = 0)
  (harguments : (Register.arguments.take total).map p.registers ++ passed = arguments)

include h hpassed heven harguments

/-- What a call leaves behind. The words it was passed on the stack may have been changed. -/
theorem called :
    ∃ q spoiled, p.call s.world s.noise target total = some q ∧ q.rest = p.rest ∧ spoiled.length = passed.length ∧
      q.registers .rax = (Memory.call s.world target arguments memory).1 ∧
      Settled s locals (spoiled ++ waiting) (Memory.call s.world target arguments memory).2 q := by
  have hheight : p.height = s.high + (passed ++ waiting).length := h.height
  have hlength : (passed ++ waiting).length = passed.length + waiting.length := length_append
  have haligned := s.high_mod_two
  have hseen : p.arguments total = arguments := by
    rw [← harguments, Processor.arguments, ← hpassed, h.height, h.waiting.map_range]
  let q := p.called s.world s.noise target total
  have hcall : p.call s.world s.noise target total = some q := by
    unfold call
    rw [if_pos (by omega)]
  have hkept : ∀ index < s.high + waiting.length, q.stack index = p.stack index := by
    intro index hindex
    show (if index < p.height - (total - Register.arguments.length) then p.stack index else _) = _
    rw [if_pos (by omega)]
  have hsaved : ∀ r, r ∉ Register.scratch → q.registers r = p.registers r := by
    intro r hr
    have hrax : r ≠ .rax := by
      intro hsame
      exact hr (hsame ▸ by decide)
    show (if r = .rax then _ else if r ∈ Register.scratch then _ else p.registers r) = _
    rw [if_neg hrax, if_neg hr]
  have hhistory : q.history = (Memory.call s.world target arguments memory).2.history := by
    show p.history ++ [.call target (p.arguments total)] = _
    rw [h.history, hseen]
    rfl
  have hglobals : q.globals = (Memory.call s.world target arguments memory).2.globals := by
    show s.world.globals q.history p.globals = _
    rw [hhistory, h.globals]
    rfl
  obtain ⟨spoiled, hspoiled, hsettled⟩ := h.transfer hhistory hglobals rfl rfl hkept hsaved
  refine ⟨_, spoiled, hcall, rfl, hspoiled, ?_, hsettled⟩
  show s.world.result q.history = _
  rw [hhistory]
  rfl

theorem call (hrest : p.rest = .instruction instruction :: rest)
    (hexecute : (p.next rest).execute s.world s.noise s.whole instruction = (p.next rest).call s.world s.noise target total)
    (hnext : ∀ q spoiled, spoiled.length = passed.length → q.rest = rest →
      q.registers .rax = (Memory.call s.world target arguments memory).1 →
      Settled s locals (spoiled ++ waiting) (Memory.call s.world target arguments memory).2 q → Leads s least q post) :
    Leads s least p post := by
  obtain ⟨q, spoiled, hcalled, hrestq, hspoiled, hrax, hsettled⟩ := (h.next rest).called target hpassed heven harguments
  exact Leads.step ((step_instruction hrest).trans (hexecute.trans hcalled))
    (hnext q spoiled hspoiled hrestq hrax hsettled)

end

variable {name : String}

section

variable (h : Settled s locals waiting memory p)

include h

theorem runtimeAligned (arguments : List Word)
    (hrest : p.rest = .instruction (.call name total) :: rest) (heven : waiting.length % 2 = 0)
    (htotal : total ≤ Register.arguments.length)
    (harguments : (Register.arguments.take total).map p.registers = arguments)
    (hnext : ∀ q, q.rest = rest → q.registers .rax = (Memory.runtime s.world name arguments memory).1 →
      Settled s locals waiting (Memory.runtime s.world name arguments memory).2 q → Leads s least q post) :
    Leads s least p post := by
  have hpassed : Settled s locals ([] ++ waiting) memory p := h
  refine hpassed.call (.function name) (Nat.sub_eq_zero_of_le htotal).symm heven ((append_nil _).trans harguments) hrest rfl
    fun q spoiled hspoiled hrest hrax h => hnext q hrest hrax ?_
  obtain rfl := length_eq_zero_iff.1 hspoiled
  exact h

theorem runtime (arguments : List Word)
    (hrest : p.rest = Code.runtime waiting.length name total ++ rest) (htotal : total ≤ Register.arguments.length)
    (harguments : (Register.arguments.take total).map p.registers = arguments)
    (hnext : ∀ q, q.rest = rest → q.registers .rax = (Memory.runtime s.world name arguments memory).1 →
      Settled s locals waiting (Memory.runtime s.world name arguments memory).2 q → Leads s least q post) :
    Leads s least p post := by
  unfold Code.runtime at hrest
  split at hrest
  · next hodd =>
    have hodd := eq_of_beq hodd
    refine h.reserve hrest fun q word hrest hregisters h => ?_
    refine h.runtimeAligned arguments hrest (by rw [length_cons]; omega) htotal (hregisters ▸ harguments) fun q hrest hrax h => ?_
    have hpadded : Settled s locals ([word] ++ waiting) _ q := h
    refine hpadded.release hrest rfl fun q hrest hregisters h => hnext q hrest ?_ h
    rw [hregisters]
    exact hrax
  · next heven =>
    have heven : waiting.length % 2 ≠ 1 := fun hodd => heven (beq_iff_eq.2 hodd)
    exact h.runtimeAligned arguments hrest (by omega) htotal harguments hnext

theorem truth (hrest : p.rest = Code.truth waiting.length ++ rest)
    (hnext : ∀ q, q.rest = rest → q.zero = !(Memory.truth s.world (p.registers .rax) memory).1 →
      Settled s locals waiting (Memory.truth s.world (p.registers .rax) memory).2 q → Leads s least q post) :
    Leads s least p post := by
  rw [Code.truth, append_assoc, append_assoc] at hrest
  refine h.set .rdi (p.registers .rax) hrest (by decide) rfl fun q hrest _ hregisters h => ?_
  refine h.runtime [p.registers .rax] hrest (by decide) (by rw [hregisters]; rfl) fun q hrest hrax h => ?_
  refine Leads.step (step_instruction hrest) (hnext _ rfl ?_ (h.congr rfl rfl rfl (fun _ _ => rfl) fun _ _ => rfl))
  show (q.registers .rax).isZero = !!(Memory.runtime s.world "dyn_truthy" [p.registers .rax] memory).1.isZero
  rw [hrax, Bool.not_not]

/-! ### Variables -/

variable {id : Nat}

theorem index?_frame {offset : Nat} (hlocation : s.allocation.location? id = some (.frame offset)) :
    p.index? (.frame offset) = some (s.base + offset / 8 - 1) := by
  obtain ⟨haligned, hlow, -⟩ := s.proper.frame hlocation
  have hroom := (Setting.frame_mem hlocation).2
  have hheight := h.height
  unfold index?
  rw [h.pointer]
  exact if_pos ⟨haligned, by omega, by omega⟩

variable {location : Location}

section

variable (hlocation : s.allocation.location? id = some location)

include hlocation

theorem read_location : p.read location.place = some (s.word p location) := by
  cases location with
  | register r =>
    have hpool := s.proper.pool r (s.proper.register hlocation)
    exact read_register (ne_rsp hpool)
  | frame offset =>
    show (p.index? (.frame offset)).map p.stack = _
    rw [h.index?_frame hlocation]
    rfl

omit hlocation in
theorem read_local (hid : id ∈ locals) (hlocation : s.allocation.location? id = some location) :
    p.read location.place = some (memory.locals id) := by
  rw [← h.locals id hid location hlocation]
  exact h.read_location hlocation

theorem locals_update (hword : s.word q location = word)
    (hothers : ∀ {other : Nat} {location' : Location}, s.allocation.location? other = some location' →
      location' ≠ location → s.word q location' = s.word p location') :
    ∀ id' ∈ id :: locals, ∀ location', s.allocation.location? id' = some location' →
      s.word q location' = update memory.locals id word id' := by
  intro id' hid' location' hlocation'
  by_cases hsame : id' = id
  · subst hsame
    rw [hlocation] at hlocation'
    obtain rfl := Option.some.inj hlocation'
    rw [update_self]
    exact hword
  · have hne : location' ≠ location := by
      intro heq
      subst heq
      exact hsame (s.proper.injective hlocation' hlocation)
    rw [update_of_ne hsame, hothers hlocation' hne]
    exact h.locals id' ((mem_cons.1 hid').resolve_left hsame) location' hlocation'

theorem write_local (word : Word) : ∃ q, p.write location.place word = some q ∧ q.rest = p.rest ∧
      (∀ r ∈ scratch, q.registers r = p.registers r) ∧
      Settled s (id :: locals) waiting { memory with locals := update memory.locals id word } q := by
  cases location with
  | register r =>
    have hsaved := s.proper.register hlocation
    have hpool := s.proper.pool r hsaved
    have hother : ∀ r', r' ≠ r → (p.set r word).registers r' = p.registers r' := fun r' hne => update_of_ne hne _ _
    refine ⟨p.set r word, write_register (ne_rsp hpool), rfl, ?_, h.history, h.globals, ?_, h.height,
      h.waiting, h.below, ?_, h.locals_update hlocation (update_self _ _ _) ?_⟩
    · intro r' hscratch
      exact hother r' fun hsame => not_mem_scratch hpool (hsame ▸ hscratch)
    · exact (hother .rbp fun hsame => absurd (hsame ▸ hpool) (by decide)).trans h.pointer
    · intro r' hpool' hsaved'
      exact (hother r' fun hsame => hsaved' (hsame ▸ hsaved)).trans (h.kept r' hpool' hsaved')
    · intro _ location' _ hne
      cases location' with
      | register r' => exact hother r' fun hsame => hne (congrArg Location.register hsame)
      | frame offset => rfl
  | frame offset =>
    obtain ⟨hindexLow, hindexHigh⟩ := Setting.frame_mem hlocation
    have hother : ∀ index, index ≠ s.base + offset / 8 - 1 →
        update p.stack (s.base + offset / 8 - 1) word index = p.stack index :=
      fun index hne => update_of_ne hne _ _
    have hwrite : p.write (.frame offset) word =
        some { p with stack := update p.stack (s.base + offset / 8 - 1) word } := by
      show (p.index? (.frame offset)).map _ = _
      rw [h.index?_frame hlocation]
      rfl
    refine ⟨_, hwrite, rfl, fun _ _ => rfl, h.history, h.globals, h.pointer, h.height, ?_, ?_, h.kept,
      h.locals_update hlocation (update_self _ _ _) ?_⟩
    · apply h.waiting.congr
      intro index hstart _
      exact hother index (by omega)
    · intro index hindex
      exact (hother index (by omega)).trans (h.below index hindex)
    · intro _ location' hlocation' hne
      cases location' with
      | register r => rfl
      | frame offset' =>
        have hoffset : offset' ≠ offset := fun hsame => hne (congrArg Location.frame hsame)
        obtain ⟨haligned, hlow, -⟩ := s.proper.frame hlocation
        obtain ⟨haligned', hlow', -⟩ := s.proper.frame hlocation'
        exact hother _ (by omega)

theorem store {source : Register} (hsource : source ∈ scratch)
    (hrest : p.rest = .instruction (.move location.place source) :: rest)
    (hnext : ∀ q, q.rest = rest → (∀ r ∈ scratch, q.registers r = p.registers r) →
      Settled s (id :: locals) waiting
        { memory with locals := update memory.locals id (p.registers source) } q → Leads s least q post) :
    Leads s least p post := by
  have hrsp : source ≠ .rsp := by
    intro hsame
    exact absurd (hsame ▸ hsource) (by decide)
  obtain ⟨q, hwrite, hrestq, hregisters, hsettled⟩ := (h.next rest).write_local hlocation (p.registers source)
  have hstep : p.step s.world s.noise s.whole = some q := by
    rw [step_instruction hrest]
    show (p.next rest).read source >>= (p.next rest).write location.place = some q
    rw [read_register hrsp]
    exact hwrite
  exact Leads.step hstep (hnext q hrestq hregisters hsettled)

end

theorem load (hid : id ∈ locals) (hlocation : s.allocation.location? id = some location)
    (hrest : p.rest = .instruction (.move rax location.place) :: rest)
    (hnext : ∀ q, q.rest = rest → q.registers .rax = memory.locals id → Settled s locals waiting memory q →
      Leads s least q post) : Leads s least p post := by
  refine h.set .rax (memory.locals id) hrest (by decide) ?_ fun q hrest _ hregisters h => hnext q hrest ?_ h
  · show (p.next rest).read location.place >>= (p.next rest).write rax = _
    rw [(h.next rest).read_local hid hlocation]
    rfl
  · rw [hregisters]
    rfl

theorem storeGlobal (hrest : p.rest = .instruction (.move (.global name) rax) :: rest)
    (hnext : ∀ q, q.rest = rest → q.registers = p.registers →
      Settled s locals waiting
        { memory with
          globals := update memory.globals name (p.registers .rax)
          history := memory.history ++ [.store name (p.registers .rax)] } q → Leads s least q post) : Leads s least p post := by
  refine Leads.step (step_instruction hrest) (hnext _ rfl rfl ?_)
  refine { h with history := ?_, globals := ?_ }
  · show p.history ++ _ = _
    rw [h.history]
    rfl
  · show update p.globals name _ = _
    rw [h.globals]
    rfl

end

/-! ### Sequences -/

theorem pushes (list : List Register) (h : Settled s locals waiting memory p)
    (hrest : p.rest = Code.instructions (list.map .push) ++ rest)
    (hnext : ∀ q, q.rest = rest → q.registers = p.registers →
      Settled s locals ((list.map p.registers).reverse ++ waiting) memory q → Leads s least q post) :
    Leads s least p post := by
  induction list generalizing p waiting with
  | nil => exact hnext p hrest rfl h
  | cons r list ih =>
    refine h.push hrest fun q hrest hregisters h => ih h hrest fun q' hrest' hregisters' h' => ?_
    refine hnext q' hrest' (hregisters'.trans hregisters) ?_
    rw [hregisters] at h'
    rw [map_cons, reverse_cons, append_assoc]
    exact h'

theorem pops (list : List Register) (hnodup : list.Nodup) (hscratch : ∀ r ∈ list, r ∈ scratch)
    (hlength : front.length = list.length) (h : Settled s locals (front ++ waiting) memory p)
    (hrest : p.rest = Code.instructions (list.map .pop) ++ rest)
    (hnext : ∀ q, q.rest = rest → list.map q.registers = front → (∀ r, r ∉ list → q.registers r = p.registers r) →
      Settled s locals waiting memory q → Leads s least q post) : Leads s least p post := by
  induction list generalizing p front with
  | nil =>
    obtain rfl := length_eq_zero_iff.1 hlength
    exact hnext p hrest rfl (fun _ _ => rfl) h
  | cons r list ih =>
    obtain ⟨hr, hnodup⟩ := nodup_cons.1 hnodup
    cases front with
    | nil => contradiction
    | cons word front =>
      refine h.pop hrest (hscratch r mem_cons_self) fun q hrest _ hregisters h => ?_
      refine ih hnodup (fun r hr => hscratch r (mem_cons_of_mem _ hr)) (Nat.succ.inj hlength) h hrest ?_
      intro q' hrest' hfront hothers h'
      refine hnext q' hrest' ?_ ?_ h'
      · rw [map_cons, hothers r hr, hregisters, update_self, hfront]
      · intro other hother
        have hne : other ≠ r := fun hsame => hother (hsame ▸ mem_cons_self)
        rw [hothers other fun hmem => hother (mem_cons_of_mem _ hmem), hregisters, update_of_ne hne]

end Settled

variable {memory : Memory}

theorem Memory.poll_of_suspends (hsuspends : world.suspends memory.looked.history = true) :
    (poll world memory).2 = (runtime world "gc_enter_safepoint" [] memory.looked).2 := by
  show ((if world.suspends memory.looked.history = true then _ else _ : Computation Unit) memory.looked).2 = _
  rw [if_pos hsuspends]
  rfl

theorem Memory.poll_of_not_suspends (hsuspends : world.suspends memory.looked.history = false) :
    (poll world memory).2 = memory.looked := by
  show ((if world.suspends memory.looked.history = true then _ else _ : Computation Unit) memory.looked).2 = _
  rw [hsuspends]
  rfl

/-- A stop for a collection if one is asked for, at which some registers survive on the stack. -/
theorem Settled.poll {locals : List Nat} {number : Nat} (list : List Register) (hnodup : list.Nodup)
    (hscratch : ∀ r ∈ list, r ∈ scratch) (heven : list.length % 2 = 0) (h : Settled s locals [] memory p)
    (hplace : Code.poll number (list.map .push) (list.reverse.map .pop) ++ rest <:+ s.whole)
    (hrest : p.rest = Code.poll number (list.map .push) (list.reverse.map .pop) ++ rest) :
    Leads s 0 p fun q => q.rest = rest ∧ (∀ r ∈ list, q.registers r = p.registers r) ∧
      Settled s locals [] (Memory.poll s.world memory).2 q := by
  have hlines : Code.poll number (list.map .push) (list.reverse.map .pop) ++ rest =
      .instruction .pollRequest :: .instruction (.jump .equal (.safe number)) ::
        (Code.instructions (list.map .push) ++ (.instruction (.call "gc_enter_safepoint" 0) ::
          (Code.instructions (list.reverse.map .pop) ++ (.label (.safe number) :: rest)))) := by
    simp [Code.poll, Code.instructions]
  rw [hlines] at hplace hrest
  have hend : .label (.safe number) :: rest <:+ s.whole :=
    (suffix_append _ _).trans ((suffix_cons _ _).trans ((suffix_append _ _).trans
      ((suffix_cons _ _).trans ((suffix_cons _ _).trans hplace))))
  refine h.request hrest fun q hrest hasked hzero h => ?_
  cases hsuspends : s.world.suspends memory.looked.history with
  | false =>
    rw [Memory.poll_of_not_suspends hsuspends]
    rw [hsuspends] at hzero
    exact h.jump hrest hzero hend fun q hrest hregisters h =>
      .here ⟨hrest, fun r _ => by rw [hregisters, hasked], h⟩
  | true =>
    rw [Memory.poll_of_suspends hsuspends]
    rw [hsuspends] at hzero
    refine h.pass hrest hzero fun q hrest hpassed h => ?_
    refine h.pushes list hrest fun q hrest hpushed h => ?_
    refine h.runtimeAligned [] hrest (by simpa using heven) (by decide) rfl fun q hrest _ h => ?_
    refine Settled.pops list.reverse ((reverse_perm list).nodup_iff.2 hnodup) (fun r hr => hscratch r (mem_reverse.1 hr)) (by simp)
      h hrest fun q hrest hpopped _ h => ?_
    refine h.skip hrest fun q' hrest hregisters h => .here ⟨hrest, fun r hr => ?_, h⟩
    have hsame : list.map q.registers = list.map p.registers := by
      rw [hpassed, hasked, ← map_reverse] at hpopped
      simpa using congrArg reverse hpopped
    rw [hregisters]
    exact map_inj_left.1 hsame r hr

end NanScript
