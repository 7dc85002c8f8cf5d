import NanScript.Proofs.Emission.Routine
import NanScript.Proofs.Emission.Statement

/-!
# The code of a function

A function is entered behind a call: the arguments are in registers and on the stack, and the return address lies on top of
it. Its code makes a frame, copies the arguments to the locations of the parameters, runs the body and takes the frame down
again. Main statement: whatever the locations are, as long as different locals have different ones, the function calls what
the evaluator calls, with the same arguments and in the same order, stores what it stores, and returns what it returns; and
its caller finds the stack and the registers that it counts on as they were.
-/

namespace NanScript

open Register Code Function Emit Memory List

/-! ### Arguments -/

/-- The word that a function finds as its argument at a position. The first are in registers; the others lie on the stack
below the return address. -/
def Processor.argument (p : Processor) (position : Nat) : Word :=
  match Register.arguments[position]? with
  | some source => p.registers source
  | none => p.stack (p.height - 2 - (position - Register.arguments.length))

/-- A function is about to run, and its caller has left room for that many arguments. -/
structure Entered (whole : Code) (count : Nat) (p : Processor) : Prop where
  rest : p.rest = whole
  /-- The stack was aligned before the call put the return address on it. -/
  odd : p.height % 2 = 1
  room : count - arguments.length < p.height

/-- A function that was entered in the state `p` is about to return. -/
structure Leaves (p : Processor) (word : Word) (memory : Memory) (q : Processor) : Prop where
  returned : q.Returned
  value : q.registers .rax = word
  history : q.history = memory.history
  globals : q.globals = memory.globals
  height : q.height = p.height
  stack : ∀ index < p.height, q.stack index = p.stack index
  registers : ∀ r ∈ rbp :: pool, q.registers r = p.registers r

section

variable {s : Setting} {locals : List Nat} {memory : Memory} {p : Processor} {rest : Code} {least : Nat}
  {post : Processor → Prop}

/-- The arguments of a function, as they are found above its frame. -/
structure Setting.Passed (s : Setting) (arguments : Nat → Word) (count : Nat) : Prop where
  below : ∀ position, Register.arguments.length ≤ position →
    arguments position = s.below (s.base - 3 - (position - Register.arguments.length))
  room : count - Register.arguments.length + 1 < s.base

/-- The first arguments are in their registers. -/
def Processor.Holds (p : Processor) (arguments : Nat → Word) : Prop :=
  ∀ (position : Nat) (r : Register), Register.arguments[position]? = some r → p.registers r = arguments position

theorem Register.argument_mem_scratch {position : Nat} {r : Register} (hr : arguments[position]? = some r) :
    r ∈ scratch ∧ r ≠ .rax := by
  have hall : ∀ r ∈ arguments, r ∈ scratch ∧ r ≠ .rax := by decide
  exact hall r (mem_of_getElem? hr)

section

variable (h : Settled s locals [] memory p)

include h

theorem Settled.read_incoming {words : Nat} (hroom : words + 2 < s.base) :
    p.read (.incoming (16 + 8 * words)) = some (s.below (s.base - 3 - words)) := by
  have hindex : p.index? (.incoming (16 + 8 * words)) = some (s.base - 3 - words) := by
    unfold Processor.index?
    rw [h.pointer]
    show (if (16 + 8 * words) % 8 = 0 ∧ (16 + 8 * words) / 8 < s.base then some (s.base - 1 - (16 + 8 * words) / 8)
      else none) = _
    rw [if_pos (by omega)]
    exact congrArg some (by omega)
  have hlow : s.base ≤ s.low := Nat.le_add_right _ _
  show (p.index? (.incoming (16 + 8 * words))).map p.stack = _
  rw [hindex, Option.map_some, h.below _ (by omega)]

/-- One argument is copied to the location of its parameter. -/
theorem Settled.receive {arguments : Nat → Word} {count position id : Nat} {location : Location}
    (hpassed : s.Passed arguments count) (hposition : position < count) (hholds : p.Holds arguments)
    (hlocation : s.allocation.location? id = some location) (hrest : p.rest = parameter position location.place ++ rest) :
    Leads s 0 p fun q => q.rest = rest ∧ q.Holds arguments ∧ Settled s (id :: locals) []
      { memory with locals := update memory.locals id (arguments position) } q := by
  unfold parameter at hrest
  cases hsource : Register.arguments[position]? with
  | some source =>
    rw [hsource] at hrest
    refine h.store hlocation (argument_mem_scratch hsource).1 hrest fun q hrest hkept h => .here ⟨hrest, ?_, ?_⟩
    · intro index r hr
      rw [hkept r (argument_mem_scratch hr).1]
      exact hholds index r hr
    · rw [hholds position source hsource] at h
      exact h
  | none =>
    rw [hsource] at hrest
    have hlate : Register.arguments.length ≤ position := getElem?_eq_none_iff.1 hsource
    have hroom := hpassed.room
    refine h.set .rax (arguments position) hrest (by decide) ?_ fun q hrest _ hloaded h => ?_
    · show (p.next _).read _ >>= (p.next _).write rax = _
      rw [(h.next _).read_incoming (by omega), hpassed.below position hlate]
      rfl
    refine h.store hlocation (by decide) hrest fun q' hrest hkept h => .here ⟨hrest, ?_, ?_⟩
    · intro index r hr
      obtain ⟨hscratch, hrax⟩ := argument_mem_scratch hr
      rw [hkept r hscratch, hloaded, update_of_ne hrax]
      exact hholds index r hr
    · rw [hloaded, update_self] at h
      exact h

theorem Settled.receiveAll {arguments : Nat → Word} {list : List Tree} {position first next : Nat} {made : Code}
    (hpassed : s.Passed arguments (position + list.length)) (hholds : p.Holds arguments)
    (hemits : (parameters (s.around none) position list).Emits first made next) (hrest : p.rest = made ++ rest) :
    Leads s 0 p fun q => q.rest = rest ∧ Settled s ((parameterLocals list).reverse ++ locals) []
      (Memory.receive arguments position list memory).2 q := by
  induction list generalizing position first made locals memory p with
  | nil =>
    obtain ⟨rfl, rfl⟩ := emits_pure.1 hemits
    exact .here ⟨hrest, h⟩
  | cons tree list ih =>
    have hcount : position + (tree :: list).length = position + 1 + list.length := by
      rw [length_cons]
      omega
    have hrest' : s.Passed arguments (position + 1 + list.length) := hcount ▸ hpassed
    cases tree with
    | var note name symbol =>
      simp only [parameters, emits_bind, emits_pure] at hemits
      obtain ⟨location, _, hlocated, _, _, hlist, rfl, rfl⟩ := hemits
      obtain ⟨id, rfl, hlocation, rfl⟩ := local_of_emits_location hlocated
      rw [append_assoc] at hrest
      have hposition : position < position + 1 + list.length := by omega
      refine (h.receive hrest' hposition hholds hlocation hrest).trans fun q hq => ?_
      obtain ⟨hrest, hholds, h⟩ := hq
      have hlocals : (parameterLocals (.var note name (.localVar id) :: list)).reverse ++ locals =
          (parameterLocals list).reverse ++ id :: locals := by
        show (id :: parameterLocals list).reverse ++ locals = _
        rw [reverse_cons, append_assoc]
        rfl
      rw [hlocals]
      exact ih h hrest' hholds hlist hrest
    | _ => exact ih h hrest' hholds hemits hrest

omit h in
theorem Leads.pops (list : List Register) (hnodup : list.Nodup) {start : Nat} {words : List Word}
    (hwords : Stacked p.stack start words) (hlength : words.length = list.length) (hheight : p.height = start + words.length)
    (hrest : p.rest = instructions (list.map .pop) ++ rest)
    (hnext : ∀ q, q.rest = rest → list.map q.registers = words → (∀ r, r ∉ list → q.registers r = p.registers r) →
      q.height = start → q.stack = p.stack → q.history = p.history → q.globals = p.globals → Leads s least q post) :
    Leads s least p post := by
  induction list generalizing p words with
  | nil =>
    obtain rfl := length_eq_zero_iff.1 hlength
    exact hnext p hrest rfl (fun _ _ => rfl) hheight rfl rfl rfl
  | cons r list ih =>
    obtain ⟨hr, hnodup⟩ := nodup_cons.1 hnodup
    cases words with
    | nil => contradiction
    | cons word words =>
      have hheight : p.height = start + (words.length + 1) := hheight
      have hword : p.stack (p.height - 1) = word := by
        rw [hheight]
        exact hwords.1
      have hstep : p.step s.world s.noise s.whole =
          some { (p.next (instructions (list.map .pop) ++ rest)).set r word with height := p.height - 1 } := by
        rw [Processor.step_instruction hrest]
        show (if 0 < p.height then some { (p.next _).set r (p.stack (p.height - 1)) with height := p.height - 1 }
          else none) = _
        rw [if_pos (by omega), hword]
        rfl
      refine Leads.step hstep (ih hnodup hwords.2 (Nat.succ.inj hlength) ?_ rfl ?_)
      · show p.height - 1 = _
        rw [hheight]
        rfl
      · intro q hrest hpopped hothers hheight hstack hhistory hglobals
        refine hnext q hrest ?_ ?_ hheight hstack hhistory hglobals
        · rw [map_cons, hpopped, hothers r hr]
          show update p.registers r word r :: words = _
          rw [update_self]
        · intro other hother
          have hne : other ≠ r := fun hsame => hother (hsame ▸ mem_cons_self)
          rw [hothers other fun hmem => hother (mem_cons_of_mem _ hmem)]
          exact update_of_ne hne _ _

omit h in
theorem Stacked.concat {stack : Nat → Word} {start : Nat} {words : List Word} {word : Word}
    (hwords : Stacked stack (start + 1) words) (hword : stack start = word) : Stacked stack start (words ++ [word]) := by
  induction words with
  | nil => exact ⟨hword, trivial⟩
  | cons first rest ih =>
    refine ⟨?_, ih hwords.2⟩
    show stack (start + (rest ++ [word]).length) = first
    rw [length_append, length_singleton, ← Nat.add_assoc, Nat.add_right_comm]
    exact hwords.1

theorem Settled.step_unwind {words : Nat} (hrest : p.rest = .instruction (.unwind (8 * words)) :: rest) :
    p.step s.world s.noise s.whole = some { p.next rest with height := s.base + words } := by
  rw [Processor.step_instruction hrest]
  have hpointer : (p.next rest).registers .rbp = .height s.base := h.pointer
  simp only [Processor.execute, hpointer, Nat.mul_div_cancel_left _ (show 0 < 8 by decide)]

/-- The way out of a function, behind the label of the exit. The frame is given up and the saved registers are restored. -/
theorem Settled.leave {saved : List Word} {pointer : Word} {bottom : Nat} (hbase : s.base = bottom + 1)
    (hsaved : Stacked s.below s.base saved) (hlength : saved.length = s.allocation.saved.length)
    (hpointer : s.below bottom = pointer) (hrest : p.rest = instructions ([.unwind (8 * s.allocation.saved.length)] ++
      s.allocation.saved.reverse.map .pop ++ [.pop .rbp, .ret]) ++ rest)
    (hnext : ∀ q, q.Returned → q.registers .rax = p.registers .rax → q.history = memory.history →
      q.globals = memory.globals → q.height = bottom → (∀ index < s.base, q.stack index = s.below index) →
      q.registers .rbp = pointer → s.allocation.saved.reverse.map q.registers = saved →
      (∀ r ∈ pool, r ∉ s.allocation.saved → q.registers r = s.kept r) → Leads s least q post) :
    Leads s least p post := by
  have hlines : instructions ([.unwind (8 * s.allocation.saved.length)] ++ s.allocation.saved.reverse.map .pop ++
      [.pop .rbp, .ret]) ++ rest = .instruction (.unwind (8 * s.allocation.saved.length)) ::
        (instructions ((s.allocation.saved.reverse ++ [rbp]).map .pop) ++ (.instruction .ret :: rest)) := by
    simp [instructions]
  rw [hlines] at hrest
  refine Leads.step (h.step_unwind hrest) ?_
  have hlow : s.low = s.base + s.allocation.saved.length := rfl
  have hstacked : Stacked p.stack bottom (saved ++ [pointer]) := by
    refine Stacked.concat ?_ ((h.below bottom (by omega)).trans hpointer)
    rw [← hbase]
    apply hsaved.congr
    intro index _ hindex
    exact h.below index (by omega)
  have hrbp : rbp ∉ s.allocation.saved := by
    intro hmem
    exact absurd (s.proper.pool _ hmem) (by decide)
  have hnodup : (s.allocation.saved.reverse ++ [rbp]).Nodup := by
    refine nodup_append.2 ⟨(reverse_perm _).nodup_iff.2 s.proper.nodup, by simp, ?_⟩
    intro r hr other hother hsame
    obtain rfl := mem_singleton.1 hother
    exact hrbp (hsame ▸ mem_reverse.1 hr)
  refine Leads.pops _ hnodup hstacked (by simp [hlength]) ?_ rfl ?_
  · show s.base + s.allocation.saved.length = _
    rw [length_append, hlength, length_singleton, hbase]
    omega
  intro q hrest hpopped hothers hheight hstack hhistory hglobals
  rw [map_append] at hpopped
  obtain ⟨hrestored, hrbp'⟩ := append_inj' hpopped rfl
  refine hnext q ?_ (hothers .rax ?_) (hhistory.trans h.history) (hglobals.trans h.globals) hheight ?_
    (head_eq_of_cons_eq hrbp') hrestored ?_
  · unfold Processor.Returned
    rw [hrest]
    rfl
  · intro hmem
    rcases mem_append.1 hmem with hmem | hmem
    · exact absurd (s.proper.pool _ (mem_reverse.1 hmem)) (by decide)
    · simp at hmem
  · intro index hindex
    rw [hstack]
    exact h.below index (by omega)
  · intro r hpool hr
    refine (hothers r ?_).trans (h.kept r hpool hr)
    intro hmem
    rcases mem_append.1 hmem with hmem | hmem
    · exact hr (mem_reverse.1 hmem)
    · obtain rfl := mem_singleton.1 hmem
      exact absurd hpool (by decide)

end

end

/-! ### The way in -/

theorem Allocation.proper_empty : Allocation.Proper {} 0 := by
  have hnowhere : ∀ {id : Nat} {location : Location}, ({} : Allocation).location? id ≠ some location := by
    intro id location hlocation
    contradiction
  exact ⟨fun hlocation => absurd hlocation hnowhere, nodup_nil, fun _ hr => absurd hr not_mem_nil,
    fun hlocation => absurd hlocation hnowhere, fun hlocation => absurd hlocation hnowhere⟩

/-- The frame of a function that was entered in the state `p` is there, but for the values of the parameters. -/
structure Framed (allocation : Allocation) (rest : Code) (memory : Memory) (p q : Processor) : Prop where
  rest : q.rest = rest
  history : q.history = memory.history
  globals : q.globals = memory.globals
  pointer : q.registers .rbp = .height (p.height + 1)
  height : q.height = p.height + 1 + allocation.saved.length + allocation.frameSize / 8
  below : ∀ index < p.height, q.stack index = p.stack index
  caller : q.stack p.height = p.registers .rbp
  saved : Stacked q.stack (p.height + 1) (allocation.saved.map p.registers).reverse
  kept : ∀ r ∈ pool, q.registers r = p.registers r
  arguments : ∀ r ∈ arguments, q.registers r = p.registers r

theorem Entered.framed {world : World} {noise : Noise} {allocation : Allocation} {name : String} {safe count : Nat}
    {copies made : Code} {p : Processor} (hentered : Entered (function name allocation safe copies made) count p)
    (hpool : ∀ r ∈ allocation.saved, r ∈ pool)
    (hunique : ∀ key, uses key (function name allocation safe copies made) ≤ 1) (locals : Nat → Word) :
    ∃ steps q, p.run world noise (function name allocation safe copies made) steps = some q ∧
      Framed allocation (copies ++ (made ++ ending allocation))
        (poll world ⟨locals, p.globals, p.history⟩).2 p q := by
  -- While the frame is made, the function has no locals yet and everything below is its caller's.
  let s : Setting :=
    { world, noise, outline := {}, allocation := {}, words := 0, whole := function name allocation safe copies made
      base := p.height + 1, below := update p.stack p.height (p.registers .rbp), kept := p.registers
      proper := Allocation.proper_empty, unique := hunique, aligned := by have hodd := hentered.odd; simp; omega }
  have hrest := hentered.rest
  rw [function_eq] at hrest
  suffices hleads : Leads s 0 p (Framed allocation (copies ++ (made ++ ending allocation))
      (poll world ⟨locals, p.globals, p.history⟩).2 p) by
    obtain ⟨steps, q, -, hrun, hq⟩ := hleads
    exact ⟨steps, q, hrun, hq⟩
  have hmade : Leads s 0 p fun q => q.rest = poll safe (arguments.map .push)
      (arguments.reverse.map .pop) ++ (instructions (allocation.saved.map .push) ++
        (.instruction (.reserve allocation.frameSize) :: (copies ++ (made ++ ending allocation)))) ∧
      q.registers = update p.registers .rbp (.height (p.height + 1)) ∧
      Settled s [] [] ⟨locals, p.globals, p.history⟩ q := by
    refine ⟨3, { p with
      rest := _, registers := update p.registers .rbp (.height (p.height + 1)), stack := s.below
      height := p.height + 1, clock := p.clock + 3 }, Nat.zero_le _, ?_, rfl, rfl, ?_⟩
    · show p.step world noise s.whole >>= _ = _
      unfold Processor.step
      rw [hrest]
      rfl
    · refine ⟨rfl, rfl, rfl, rfl, trivial, fun _ _ => rfl, ?_, fun _ hid => absurd hid not_mem_nil⟩
      intro r hr _
      exact update_of_ne (fun hsame => absurd (hsame ▸ hr) (by decide)) _ _
  refine hmade.trans fun q hq => ?_
  obtain ⟨hrest, hregisters, h⟩ := hq
  have hplace : poll safe (arguments.map .push) (arguments.reverse.map .pop) ++
      (instructions (allocation.saved.map .push) ++
        (.instruction (.reserve allocation.frameSize) :: (copies ++ (made ++ ending allocation)))) <:+ s.whole := by
    show _ <:+ function name allocation safe copies made
    rw [function_eq]
    exact (suffix_cons _ _).trans ((suffix_cons _ _).trans (suffix_cons _ _))
  refine (Settled.poll arguments (by decide) (by decide) (by decide) h hplace hrest).trans fun q' hq => ?_
  obtain ⟨hrest, harguments, h⟩ := hq
  refine h.pushes allocation.saved hrest fun q'' hrest hpushed h => ?_
  rw [append_nil] at h
  have hsaved : allocation.saved.map q'.registers = allocation.saved.map p.registers := by
    apply map_congr_left
    intro r hr
    rw [← hpushed]
    exact h.kept r (hpool r hr) not_mem_nil
  refine Leads.step (Processor.step_instruction hrest) (.here ⟨rfl, h.history, h.globals, h.pointer, ?_, ?_, ?_, ?_, ?_, ?_⟩)
  · show q''.height + _ = _
    rw [h.height, length_reverse, length_map]
    rfl
  · intro index hindex
    exact (h.below index (Nat.lt_succ_of_lt hindex)).trans (update_of_ne (Nat.ne_of_lt hindex) _ _)
  · exact (h.below p.height (Nat.lt_succ_self _)).trans (update_self _ _ _)
  · rw [← hsaved]
    exact h.waiting
  · exact fun r hr => h.kept r hr not_mem_nil
  · intro r hr
    show q''.registers r = _
    rw [hpushed, harguments r hr, hregisters]
    exact update_of_ne (fun hsame => absurd (hsame ▸ hr) (by decide)) _ _

/-! ### The whole function -/

/-- The run of a function that was entered in the state `p` gives what the evaluator gives. If the rounds of the evaluator are
not enough, the run has come as far as the evaluator, and has taken no fewer steps than rounds were given. -/
def Follows (world : World) (noise : Noise) (whole : Code) (fuel : Nat) (p : Processor) : Option Word × Memory → Prop
  | (some word, memory) => ∃ steps q, p.run world noise whole steps = some q ∧ Leaves p word memory q
  | (none, memory) => ∃ steps q, fuel ≤ steps ∧ p.run world noise whole steps = some q ∧ q.history = memory.history

theorem Arrives.follows {s : Setting} {fuel : Nat} {p : Processor} {outcome : Option Word × Memory}
    (harrives : Arrives s fuel p (Leaves p) outcome) : Follows s.world s.noise s.whole fuel p outcome := by
  match outcome, harrives with
  | (some word, memory), harrives =>
    obtain ⟨steps, q, -, hrun, hq⟩ := harrives
    exact ⟨steps, q, hrun, hq⟩
  | (none, memory), harrives => exact harrives

/-- The run of the body of a function that was entered in the state `p` and has its frame in the state `q`. -/
def frameSetting (world : World) (noise : Noise) (outline : Outline) (whole : Code) {allocation : Allocation}
    (p q : Processor) (proper : allocation.Proper (allocation.frameSize / 8)) (unique : ∀ key, uses key whole ≤ 1)
    (odd : p.height % 2 = 1) : Setting where
  world := world
  noise := noise
  outline := outline
  allocation := allocation
  words := allocation.frameSize / 8
  whole := whole
  base := p.height + 1
  below := q.stack
  kept := q.registers
  proper := proper
  unique := unique
  aligned := by
    have hframe := allocation.frameSize_mod_sixteen
    have heven : (allocation.saved.length + allocation.frameSize / 8) % 2 = 0 := by omega
    omega

namespace Framed

variable {world : World} {noise : Noise} {outline : Outline} {whole rest : Code} {allocation : Allocation} {p q : Processor}
  {memory : Memory} {proper : allocation.Proper (allocation.frameSize / 8)} {unique : ∀ key, uses key whole ≤ 1}
  {odd : p.height % 2 = 1}

section

variable (hframed : Framed allocation rest memory p q)

include hframed

theorem settled : Settled (frameSetting world noise outline whole p q proper unique odd) [] [] memory q :=
  ⟨hframed.history, hframed.globals, hframed.pointer, hframed.height, trivial, fun _ _ => rfl, fun _ _ _ => rfl,
    fun _ hid => absurd hid not_mem_nil⟩

theorem passed {count : Nat} (hroom : count - Register.arguments.length < p.height) :
    (frameSetting world noise outline whole p q proper unique odd).Passed p.argument count := by
  refine ⟨?_, Nat.succ_lt_succ hroom⟩
  intro position hposition
  show _ = q.stack (p.height + 1 - 3 - (position - Register.arguments.length))
  rw [hframed.below _ (by omega), Processor.argument, getElem?_eq_none_iff.2 hposition]
  rfl

theorem holds : q.Holds p.argument := by
  intro position r hr
  rw [hframed.arguments r (mem_of_getElem? hr), Processor.argument, hr]

theorem leave {locals : List Nat} {memory' : Memory} {q' : Processor}
    (h : Settled (frameSetting world noise outline whole p q proper unique odd) locals [] memory' q')
    (hrest : q'.rest = instructions ([.unwind (8 * allocation.saved.length)] ++ allocation.saved.reverse.map .pop ++
      [.pop .rbp, .ret]) ++ [.blank]) : Leads (frameSetting world noise outline whole p q proper unique odd) 0 q'
      (Leaves p (q'.registers .rax) memory') := by
  have hsaved : (allocation.saved.map p.registers).reverse.length = allocation.saved.length := by
    rw [length_reverse, length_map]
  refine h.leave rfl hframed.saved hsaved hframed.caller hrest ?_
  intro last hreturned hrax hhistory hglobals hheight hstack hpointer hrestored hkept
  refine .here ⟨hreturned, hrax, hhistory, hglobals, hheight, ?_, ?_⟩
  · intro index hindex
    exact (hstack index (Nat.lt_succ_of_lt hindex)).trans (hframed.below index hindex)
  · intro r hr
    rcases mem_cons.1 hr with rfl | hpool
    · exact hpointer
    · by_cases hmem : r ∈ allocation.saved
      · have hsame : allocation.saved.map last.registers = allocation.saved.map p.registers := by
          have hreversed : (allocation.saved.map last.registers).reverse = (allocation.saved.map p.registers).reverse := by
            rw [← map_reverse]
            exact hrestored
          exact reverse_inj.1 hreversed
        exact map_inj_left.1 hsame r hmem
      · exact (hkept r hpool hmem).trans (hframed.kept r hpool)

end

end Framed

section

variable {world : World} {noise : Noise} {outline : Outline} {allocation : Allocation} {name : String} {list : List Tree}
  {body : Tree} {first next : Nat} {whole : Code}

/-- The arguments arrive at the locations of the parameters, whether or not the function stops for a collection before. -/
theorem Entered.received {copies made : Code} (hproper : allocation.Proper (allocation.frameSize / 8))
    (hcopies : (parameters { outline, allocation } 0 list).Emits first copies next) {safe : Nat}
    (hunique : ∀ key, uses key (function name allocation safe copies made) ≤ 1) {p : Processor}
    (hentered : Entered (function name allocation safe copies made) list.length p) (locals : Nat → Word) :
    ∃ q, Framed allocation (copies ++ (made ++ ending allocation))
        (Memory.poll world ⟨locals, p.globals, p.history⟩).2 p q ∧
      let s := frameSetting world noise outline _ p q hproper hunique hentered.odd
      Leads s 0 p fun q' => q'.rest = made ++ ending allocation ∧ Settled s (parameterLocals list).reverse []
        (Memory.receive p.argument 0 list (Memory.poll world ⟨locals, p.globals, p.history⟩).2).2 q' := by
  obtain ⟨steps, q, hrun, hframed⟩ := @Entered.framed world noise _ _ _ _ _ _ _ hentered hproper.pool hunique locals
  have hentrance : Leads (frameSetting world noise outline _ p q hproper hunique hentered.odd) 0 p (· = q) :=
    ⟨steps, q, Nat.zero_le _, hrun, rfl⟩
  refine ⟨q, hframed, hentrance.trans fun q' hsame => ?_⟩
  subst hsame
  rw [← append_nil (parameterLocals list).reverse]
  exact hframed.settled.receiveAll (hframed.passed (by simpa using hentered.room)) hframed.holds hcopies hframed.rest

theorem follows_evaluate (hproper : allocation.Proper (allocation.frameSize / 8))
    (hemits : (allocated outline allocation name list body).Emits first whole next) (hfunction : FunctionIn list body)
    {p : Processor} (hentered : Entered whole list.length p) (fuel : Nat) (locals : Nat → Word) :
    Follows world noise whole fuel p
      (evaluate world outline fuel list body p.argument ⟨locals, p.globals, p.history⟩) := by
  obtain ⟨copies, made, hcopies, hmade, rfl⟩ := emits_allocated hemits
  have hunique := unique_function name hcopies (Site.given_of_emits hmade).toMade
  obtain ⟨q, hframed, hreceived⟩ := @Entered.received world noise _ _ _ _ _ _ _ _ hproper hcopies _ hunique _ hentered locals
  obtain ⟨sight, hbody, hsight⟩ := hfunction
  let s := frameSetting world noise outline _ p q hproper hunique hentered.odd
  have hplace : s.Within (made ++ ending allocation) := by
    show _ <:+ function name allocation first copies made
    rw [function_eq]
    exact (suffix_append _ _).trans ((suffix_cons _ _).trans ((suffix_append _ _).trans
      ((suffix_append _ _).trans ((suffix_cons _ _).trans ((suffix_cons _ _).trans (suffix_cons _ _))))))
  have hexit : s.Within (.label .ret :: _) := hplace.behind.tail
  have hlabelled : s.Labelled none := ⟨⟨_, hexit⟩, fun _ hnone => (nomatch hnone), fun _ hnone => (nomatch hnone)⟩
  refine @Arrives.follows s fuel p _ ?_
  refine hreceived.arrives fun q' hq => ?_
  obtain ⟨hrest, h⟩ := hq
  have h := h.fewer fun id hid => mem_reverse.2 (hsight id hid)
  have hexecutes := @performs_code s fuel body _ _ _ _ _ hlabelled hmade hbody _ _ _ hplace hrest h
  refine hexecutes.bind fun flow memory q' hq => ?_
  cases flow with
  | normal =>
    obtain ⟨hrest, h⟩ := hq
    have hreturns : Leads s 0 q' (Leaves p (runtime world "dyn_new_null" [] memory).1
        (runtime world "dyn_new_null" [] memory).2) := by
      refine h.runtimeAligned [] hrest rfl (by decide) rfl fun q' hrest hrax h => ?_
      refine h.skip hrest fun q'' hrest hregisters h => ?_
      have hrax : q''.registers .rax = (runtime world "dyn_new_null" [] memory).1 := by
        rw [hregisters]
        exact hrax
      rw [← hrax]
      exact hframed.leave h hrest
    exact hreturns
  | breaks | continues =>
    obtain ⟨⟨_, hnone, -⟩, -⟩ := hq
    exact nomatch hnone
  | returns word =>
    obtain ⟨hlabel, rfl, h⟩ := hq
    have hreturns : Leads s 0 q' (Leaves p (q'.registers .rax) memory) :=
      hframed.leave h (hlabel.eq_of_label hexit)
    exact hreturns

/-- Emission preserves meaning. Take a function of a text without reports, and any locations for its locals that differ from
each other. Whatever the world answers, and whatever a call leaves in the registers that it need not keep, the emitted code
makes the same calls with the same arguments and the same stores as the evaluator, in the same order, and returns the same
word. It gives back the stack and the registers as its caller expects them. -/
theorem emission_preserves_meaning {source : String} (hsilent : (parse source).errors = []) {note : Note} {sourceName : String}
    (hfunction : Tree.funcDecl note name sourceName list body ∈ functionDeclarations (parse source).program)
    (hproper : allocation.Proper (allocation.frameSize / 8))
    (hemits : (Emit.allocated outline allocation name list body).Emits first whole next)
    {p : Processor} (hentered : Entered whole list.length p) (fuel : Nat) (locals : Nat → Word) :
    Follows world noise whole fuel p
      (evaluate world outline fuel list body p.argument ⟨locals, p.globals, p.history⟩) :=
  follows_evaluate hproper hemits (functionIn_of_parse hsilent hfunction) hentered fuel locals

end

section

private def callsSource : String := "var v; func f(a) \x7b while (a) \x7b v = a; a = g(a, v); \x7d return v; \x7d"

private def callsParameters : List Tree := [.var ⟨1, 1⟩ "a" (.localVar 1)]

private def callsBody : Tree := .block ⟨16, 1⟩
  [.whileLoop ⟨13, 1⟩ (.var ⟨2, 1⟩ "a" (.localVar 1)) (.block ⟨12, 1⟩
    [.assign ⟨5, 1⟩ "v" .global (.var ⟨4, 1⟩ "a" (.localVar 1)),
      .assign ⟨11, 1⟩ "a" (.localVar 1) (.call ⟨10, 1⟩ (.var ⟨7, 1⟩ "g" .unresolved)
        [.var ⟨8, 1⟩ "a" (.localVar 1), .var ⟨9, 1⟩ "v" .global])]) none,
    .ret ⟨15, 1⟩ (some (.var ⟨14, 1⟩ "v" .global))]

private def callsAllocation : Allocation := { assigned := [(⟨1, 0, 0⟩, .frame 8)], slots := 1 }

private def callsEmitted : Code × Nat :=
  ((allocated { globals := ["v"] } callsAllocation "f" callsParameters callsBody 0).toOption).getD default

/-- All calls but the last one succeed, and a collection is asked for in the second round. -/
private def callsWorld : World where
  result history := .bits (if history.length < 8 then 1 else 0)
  globals _ words := words
  suspends history := history.length == 6

private def callsNoise : Noise := ⟨fun _ _ => .bits 9, fun _ _ => .bits 9, fun _ => true⟩

private def callsStart : Processor where
  rest := callsEmitted.1
  registers
    | .rdi => .bits 7
    | _ => .bits 0
  height := 1
  stack _ := .bits 0
  zero := false
  globals _ := .bits 0
  history := []
  clock := 0

set_option maxRecDepth 4000 in
/-- Once around a loop that calls and stores. The first call that fails is the second test of the loop. -/
theorem emission_preserves_meaning_calls :
    (parse callsSource).errors = [] ∧ callsAllocation.Proper (callsAllocation.frameSize / 8) ∧
      ∃ steps q, callsStart.run callsWorld callsNoise callsEmitted.1 steps = some q ∧ q.Returned ∧
        q.registers .rax = .bits 7 ∧
        q.history = [.poll, .poll, .call (.function "dyn_truthy") [.bits 7], .store "v" (.bits 7),
          .call (.function "g") [.bits 7, .bits 7], .poll, .call (.function "gc_enter_safepoint") [],
          .call (.function "dyn_truthy") [.bits 1]] := by
  have hsilent : (parse callsSource).errors = [] := by decide +kernel
  have hprogram : (parse callsSource).program = [.varDecl ⟨0, 1⟩ "v" .global false none,
      .funcDecl ⟨17, 1⟩ "f" "f" callsParameters callsBody] := by
    simp only [parse, tokens_eq]
    cbv
  have hfunction : Tree.funcDecl ⟨17, 1⟩ "f" "f" callsParameters callsBody ∈
      functionDeclarations (parse callsSource).program := by
    rw [hprogram]
    exact List.mem_cons_of_mem _ List.mem_cons_self
  have honly : ∀ {id : Nat} {location : Location}, callsAllocation.location? id = some location →
      id = 1 ∧ location = .frame 8 := by
    intro id location hlocation
    by_cases hid : (1 == id) = true
    · simp [Allocation.location?, callsAllocation, hid] at hlocation
      exact ⟨(beq_iff_eq.1 hid).symm, hlocation.symm⟩
    · simp [Allocation.location?, callsAllocation, hid] at hlocation
  have hproper : callsAllocation.Proper (callsAllocation.frameSize / 8) := by
    refine ⟨fun ha hb => (honly ha).1.trans (honly hb).1.symm, List.nodup_nil, fun _ hr => absurd hr List.not_mem_nil, ?_, ?_⟩
    · intro id r hlocation
      cases (honly hlocation).2
    · intro id offset hlocation
      obtain ⟨-, ⟨⟩⟩ := honly hlocation
      decide
  have hemits : (Emit.allocated { globals := ["v"] } callsAllocation "f" callsParameters callsBody).Emits 0
      callsEmitted.1 callsEmitted.2 := rfl
  have hfollows := @emission_preserves_meaning callsWorld callsNoise _ _ _ _ _ _ _ _ _ hsilent _ _ hfunction hproper hemits
    callsStart ⟨rfl, rfl, by decide⟩ 2 fun _ => .bits 0
  obtain ⟨steps, q, hrun, hleaves⟩ := hfollows
  exact ⟨hsilent, hproper, steps, q, hrun, hleaves.returned, hleaves.value, hleaves.history⟩

end

end NanScript
