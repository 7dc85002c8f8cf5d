import NanScript.Proofs.Emission.Expression

/-!
# The code of a statement

Running the code of a statement does what the evaluator does, and leaves it the way the evaluator leaves it: behind the
statement, behind a label of the loop around it, or behind the label of the exit. If the rounds that the evaluator was given
are not enough, the processor has taken no fewer steps when it comes to the same history. A loop that runs forever is
therefore followed as far as one likes.
-/

namespace NanScript

open Emit Code Memory Leads

/-! ### Outcomes -/

/-- Where a computation leads that may run out of rounds. -/
def Arrives {α : Type} (s : Setting) (least : Nat) (p : Processor) (post : α → Memory → Processor → Prop) :
    Option α × Memory → Prop
  | (some result, memory) => Leads s 0 p (post result memory)
  | (none, memory) => Leads s least p fun q => q.history = memory.history

namespace Arrives

variable {α : Type} {s : Setting} {least : Nat} {p q : Processor} {post post' : α → Memory → Processor → Prop}
  {outcome : Option α × Memory}

theorem of_step (hstep : p.step s.world s.noise s.whole = some q) (harrives : Arrives s least q post outcome) :
    Arrives s (least + 1) p post outcome := by
  match outcome, harrives with
  | (some _, _), harrives => exact step hstep harrives
  | (none, _), harrives => exact Leads.of_step hstep harrives

theorem sooner {less : Nat} (harrives : Arrives s least p post outcome) (hless : less ≤ least) :
    Arrives s less p post outcome := by
  match outcome, harrives with
  | (some _, _), harrives => exact harrives
  | (none, _), harrives => exact Leads.sooner harrives hless

theorem onward (harrives : Arrives s least p post outcome)
    (hpost : ∀ result memory q, post result memory q → Leads s 0 q (post' result memory)) :
    Arrives s least p post' outcome := by
  match outcome, harrives with
  | (some _, _), harrives => exact harrives.trans fun q hq => hpost _ _ q hq
  | (none, _), harrives => exact harrives

end Arrives

section

variable {α β : Type} {s : Setting} {least : Nat} {p : Processor}

theorem Leads.arrives {post : Processor → Prop} {post' : α → Memory → Processor → Prop} {outcome : Option α × Memory}
    (hleads : Leads s 0 p post) (hnext : ∀ q, post q → Arrives s least q post' outcome) :
    Arrives s least p post' outcome := by
  match outcome, hnext with
  | (some _, _), hnext => exact hleads.trans hnext
  | (none, _), hnext => exact hleads.trans hnext

theorem Arrives.bind {post : α → Memory → Processor → Prop} {post' : β → Memory → Processor → Prop} {memory : Memory}
    {first : OptionT Memory.Computation α} {second : α → OptionT Memory.Computation β}
    (hfirst : Arrives s least p post (first memory))
    (hsecond : ∀ result memory q, post result memory q → Arrives s least q post' (second result memory)) :
    Arrives s least p post' ((first >>= second) memory) := by
  have hbind : (first >>= second) memory = match first memory with
      | (some result, memory) => second result memory
      | (none, memory) => (none, memory) := by
    simp only [Bind.bind, OptionT.bind, OptionT.mk, StateT.bind]
    rcases first memory with ⟨_ | result, memory⟩ <;> rfl
  rw [hbind]
  match first memory, hfirst with
  | (some result, memory), hfirst => exact hfirst.arrives fun q hq => hsecond result memory q hq
  | (none, memory), hfirst => exact hfirst

end

/-- Where the code of a statement leads to, by the way the statement ends. -/
def Ended (s : Setting) (loop : Option LoopLabels) (locals declared : List Nat) (rest : Code) (flow : Flow)
    (memory : Memory) (q : Processor) : Prop :=
  match flow with
  | .normal => q.rest = rest ∧ Settled s (declared ++ locals) [] memory q
  | .breaks => (∃ labels ∈ loop, s.Within (.label (.finish labels.finish) :: q.rest)) ∧ Settled s locals [] memory q
  | .continues => (∃ labels ∈ loop, s.Within (.label (.next labels.next) :: q.rest)) ∧ Settled s locals [] memory q
  | .returns word => s.Within (.label .ret :: q.rest) ∧ q.registers .rax = word ∧ Settled s locals [] memory q

variable {s : Setting} {loop : Option LoopLabels} {locals declared : List Nat} {rest : Code} {flow : Flow} {memory : Memory}
  {q : Processor}

theorem Ended.fewer {locals' declared' : List Nat} (hended : Ended s loop locals declared rest flow memory q)
    (hlocals : ∀ id ∈ locals', id ∈ locals) (hdeclared : ∀ id ∈ declared' ++ locals', id ∈ declared ++ locals) :
    Ended s loop locals' declared' rest flow memory q := by
  cases flow with
  | normal => exact ⟨hended.1, hended.2.fewer hdeclared⟩
  | breaks | continues => exact ⟨hended.1, hended.2.fewer hlocals⟩
  | returns word => exact ⟨hended.1, hended.2.1, hended.2.2.fewer hlocals⟩

/-- What comes behind a statement matters only if the statement ends normally. -/
theorem Ended.route {rest' : Code} (hended : Ended s loop locals declared rest flow memory q)
    (hnormal : q.rest = rest → Settled s (declared ++ locals) [] memory q →
      Leads s 0 q fun q' => q'.rest = rest' ∧ Settled s (declared ++ locals) [] memory q') :
    Leads s 0 q (Ended s loop locals declared rest' flow memory) := by
  cases flow with
  | normal => exact hnormal hended.1 hended.2
  | breaks | continues | returns word => exact .here hended

/-- The code executes a statement. -/
def Executes (s : Setting) (fuel : Nat) (loop : Option LoopLabels) (locals declared : List Nat) (made : Code)
    (execution : OptionT Memory.Computation Flow) : Prop :=
  ∀ ⦃memory : Memory⦄ ⦃p : Processor⦄ ⦃rest : Code⦄, s.Within (made ++ rest) → p.rest = made ++ rest →
    Settled s locals [] memory p → Arrives s fuel p (Ended s loop locals declared rest) (execution memory)

/-- The labels that a statement can jump to stand somewhere in the function. -/
structure Setting.Labelled (s : Setting) (loop : Option LoopLabels) : Prop where
  ret : ∃ target, s.Within (.label .ret :: target)
  finish : ∀ labels ∈ loop, ∃ target, s.Within (.label (.finish labels.finish) :: target)
  next : ∀ labels ∈ loop, ∃ target, s.Within (.label (.next labels.next) :: target)

theorem Setting.Within.eq_of_label {label : Label} {code code' : Code} (hplace : s.Within (.label label :: code))
    (hplace' : s.Within (.label label :: code')) : code = code' := by
  have hseek := seek_of_suffix s.unique hplace
  rw [seek_of_suffix s.unique hplace'] at hseek
  exact (Option.some.inj hseek).symm

section

variable {s : Setting} {fuel : Nat} {loop : Option LoopLabels} {locals declared : List Nat} {memory : Memory}
  {p : Processor} {rest : Code}

/-! ### Values in statements -/

variable {number next : Nat} {made : Code} {tree : Option Tree}

theorem computes_codeOrNull (hemits : (codeOrNull (s.around loop) 0 tree).Emits number made next)
    (hin : ∀ given ∈ tree, given.ValueIn locals) :
    Computes s locals [] made (Tree.valueOrNull s.world s.outline tree) := by
  cases tree with
  | none =>
    obtain ⟨rfl, rfl⟩ := emits_pure.1 hemits
    exact computes_runtime "dyn_new_null"
  | some tree => exact computes_code (hin tree rfl) hemits

theorem Settled.perform (h : Settled s locals [] memory p)
    (hemits : (codeOrNothing (s.around loop) 0 tree).Emits number made next)
    (hin : ∀ given ∈ tree, given.ValueIn locals) (hplace : s.Within (made ++ rest)) (hrest : p.rest = made ++ rest) :
    Leads s 0 p fun q => q.rest = rest ∧ Settled s locals [] (Tree.perform s.world s.outline tree memory).2 q := by
  cases tree with
  | none =>
    obtain ⟨rfl, rfl⟩ := emits_pure.1 hemits
    exact .here ⟨hrest, h⟩
  | some tree =>
    have hemits : (code (s.around loop) 0 tree).Emits number made next := hemits
    exact (computes_code (hin tree rfl) hemits hplace hrest h).trans fun q hq => .here ⟨hq.rest, hq.settled⟩

variable {condition : Tree}

/-- A condition is computed, and a jump over what stands behind it is taken if it does not hold. -/
theorem Settled.test {target : Code} {label : Label} (h : Settled s locals [] memory p)
    (hemits : (code (s.around loop) 0 condition).Emits number made next) (hin : condition.ValueIn locals)
    (hplace : s.Within (made ++ (Code.truth 0 ++ (Code.instructions [.jump .zero label] ++ rest))))
    (hrest : p.rest = made ++ (Code.truth 0 ++ (Code.instructions [.jump .zero label] ++ rest)))
    (htarget : s.Within (.label label :: target)) :
    Leads s 0 p fun q => q.rest = (if (condition.test s.world s.outline memory).1 then rest else target) ∧
      Settled s locals [] (condition.test s.world s.outline memory).2 q := by
  refine (computes_code hin hemits hplace hrest h).trans fun q hq => ?_
  obtain ⟨hrest, hrax, h⟩ := hq
  refine h.truth hrest fun q hrest hzero h => ?_
  rw [hrax] at hzero h
  have hzero : q.zero = !(condition.test s.world s.outline memory).1 := hzero
  cases holds : (condition.test s.world s.outline memory).1 with
  | true =>
    rw [holds] at hzero
    exact h.pass hrest hzero fun q hrest _ h => .here ⟨hrest, h⟩
  | false =>
    rw [holds] at hzero
    exact h.jump hrest hzero htarget fun q hrest _ h => .here ⟨hrest, h⟩

/-! ### Statements without parts -/

variable {value : Memory.Computation Word}

theorem executes_value (hvalue : Computes s locals [] made value) : Executes s fuel loop locals [] made (do
      let _ ← value
      return .normal) := by
  intro memory p rest hplace hrest h
  exact (hvalue hplace hrest h).trans fun q hq => .here ⟨hq.rest, hq.settled⟩

theorem executes_varDecl {name : String} {id : Nat} {location : Location} (hvalue : Computes s locals [] made value)
    (hlocation : s.allocation.location? id = some location) :
    Executes s fuel loop locals [id] (made ++ instructions [.move location.place Register.rax]) (do
      let word ← value
      store name (.localVar id) word
      return .normal) := by
  intro memory p rest hplace hrest h
  rw [List.append_assoc] at hplace hrest
  refine (hvalue hplace hrest h).trans fun q hq => ?_
  obtain ⟨hrest, hrax, h⟩ := hq
  refine h.store hlocation (by decide) hrest fun q hrest _ h => .here ⟨hrest, ?_⟩
  rw [hrax] at h
  exact h

theorem executes_ret (hlabelled : s.Labelled loop) (hvalue : Computes s locals [] made value) :
    Executes s fuel loop locals [] (made ++ instructions [.jump .always .ret]) (do
      let word ← value
      return .returns word) := by
  intro memory p rest hplace hrest h
  rw [List.append_assoc] at hplace hrest
  refine (hvalue hplace hrest h).trans fun q hq => ?_
  obtain ⟨hrest, hrax, h⟩ := hq
  obtain ⟨target, htarget⟩ := hlabelled.ret
  refine h.jump hrest rfl htarget fun q hrest hregisters h => .here ?_
  exact ⟨hrest ▸ htarget, hregisters ▸ hrax, h⟩

variable {note : Note}

theorem executes_breakLoop (hlabelled : s.Labelled loop)
    (hemits : (code (s.around loop) 0 (.breakLoop note)).Emits number made next) :
    Executes s fuel loop locals [] made (return .breaks) := by
  simp only [code, emits_bind, emits_innermost, emits_pure] at hemits
  obtain ⟨labels, _, ⟨hloop, rfl⟩, rfl, rfl⟩ := hemits
  intro memory p rest hplace hrest h
  obtain ⟨target, htarget⟩ := hlabelled.finish labels hloop
  exact h.jump hrest rfl htarget fun q hrest _ h => .here ⟨⟨labels, hloop, hrest ▸ htarget⟩, h⟩

theorem executes_continueLoop (hlabelled : s.Labelled loop)
    (hemits : (code (s.around loop) 0 (.continueLoop note)).Emits number made next) :
    Executes s fuel loop locals [] made (return .continues) := by
  simp only [code, emits_bind, emits_innermost, emits_pure] at hemits
  obtain ⟨labels, _, ⟨hloop, rfl⟩, rfl, rfl⟩ := hemits
  intro memory p rest hplace hrest h
  obtain ⟨target, htarget⟩ := hlabelled.next labels hloop
  exact h.jump hrest rfl htarget fun q hrest _ h => .here ⟨⟨labels, hloop, hrest ▸ htarget⟩, h⟩

/-! ### Statements with parts -/

variable {execution : OptionT Memory.Computation Flow}

/-- What a statement declares need not be in sight behind it. -/
theorem Executes.forget (hexecutes : Executes s fuel loop locals declared made execution) :
    Executes s fuel loop locals [] made execution := by
  intro memory p rest hplace hrest h
  refine (hexecutes hplace hrest h).onward fun _ _ _ hended => .here (hended.fewer (fun _ hid => hid) ?_)
  exact fun id hid => List.mem_append_right _ hid

theorem executes_nothing : Executes s fuel loop locals [] [] (return .normal) := by
  intro memory p rest _ hrest h
  exact here ⟨hrest, h⟩

variable {execution' : OptionT Memory.Computation Flow}

/-- What the first statement declares is in sight of the second, and of nothing behind it. -/
theorem executes_append {first second : Code} (hfirst : Executes s fuel loop locals declared first execution)
    (hsecond : Executes s fuel loop (declared ++ locals) [] second execution') :
    Executes s fuel loop locals [] (first ++ second) (do
      match ← execution with
      | .normal => execution'
      | flow => return flow) := by
  intro memory p rest hplace hrest h
  rw [List.append_assoc] at hplace hrest
  have hfewer : ∀ id ∈ locals, id ∈ declared ++ locals := fun id hid => List.mem_append_right _ hid
  refine (hfirst hplace hrest h).bind fun flow memory q hq => ?_
  cases flow with
  | normal => exact (hsecond hplace.behind hq.1 hq.2).onward fun _ _ _ hended => .here (hended.fewer hfewer hfewer)
  | breaks | continues | returns word => exact here hq

variable {finish : Nat} {tested : Code}

theorem executes_ifElse {other : Nat} {positive negative : Code}
    (hemits : (code (s.around loop) 0 condition).Emits number tested next) (hin : condition.ValueIn locals)
    (hpositive : Executes s fuel loop locals [] positive execution)
    (hnegative : Executes s fuel loop locals [] negative execution') :
    Executes s fuel loop locals [] (Code.ifElse 0 other finish tested positive negative) (do
      if ← condition.test s.world s.outline then execution else execution') := by
  intro memory p rest hplace hrest h
  rw [Code.ifElse, Code.flatten_append] at hplace hrest
  refine (h.test hemits hin hplace hrest hplace.part.part.part.part.part).arrives fun q hq => ?_
  obtain ⟨hrest, h⟩ := hq
  have hend := hplace.part.part.part.part.part.part.part
  show Arrives s fuel q _ ((if (condition.test s.world s.outline memory).1 then execution else execution')
    (condition.test s.world s.outline memory).2)
  split at hrest
  · next holds =>
    rw [if_pos holds]
    refine (hpositive hplace.part.part.part hrest h).onward fun flow memory q hq => hq.route fun hrest h => ?_
    exact h.jump hrest rfl hend fun q hrest _ h => .here ⟨hrest, h⟩
  · next holds =>
    rw [if_neg holds]
    refine (hnegative hplace.part.part.part.part.part.part hrest h).onward fun flow memory q hq =>
      hq.route fun hrest h => ?_
    exact h.skip hrest fun q hrest _ h => .here ⟨hrest, h⟩

/-! ### Loops -/

/-- The parts of a loop behind the label that it goes back to. -/
def Code.roundParts (again next finish safe : Nat) (condition body step : Code) : List Code :=
  [poll safe [] [], condition, truth 0, instructions [.jump .zero (.finish finish)], body, [.label (.next next)], step,
    instructions [.jump .always (.again again)], [.label (.finish finish)]]

/-- Where a round leads to. If the loop goes on, the jump back comes next. -/
def Rounded (s : Setting) (loop : Option LoopLabels) (locals : List Nat) (again : Nat) (behind rest : Code)
    (result : Option Flow) (memory : Memory) (q : Processor) : Prop :=
  match result with
  | some flow => Ended s loop locals [] rest flow memory q
  | none => q.rest = .instruction (.jump .always (.again again)) :: behind ∧ Settled s locals [] memory q

variable {step : Option Tree} {first second third fourth again safe : Nat} {body stepping : Code}

section

variable (htested : (code (s.around loop) 0 condition).Emits first tested second) (hcondition : condition.ValueIn locals)
  (hbody : Executes s fuel (some ⟨next, finish⟩) locals [] body execution)
  (hstepping : (codeOrNothing (s.around loop) 0 step).Emits third stepping fourth)
  (hstep : ∀ given ∈ step, given.ValueIn locals)

include htested hcondition hbody hstepping hstep

theorem Settled.round (h : Settled s locals [] memory p)
    (hplace : s.Within (Code.lines (Code.roundParts again next finish safe tested body stepping) rest))
    (hrest : p.rest = Code.lines (Code.roundParts again next finish safe tested body stepping) rest) :
    Arrives s fuel p (Rounded s loop locals again (.label (.finish finish) :: rest) rest)
      (Tree.round s.world s.outline condition execution step memory) := by
  have hend : s.Within (.label (.finish finish) :: rest) := hplace.part.part.part.part.part.part.part.part
  have hnext := hplace.part.part.part.part.part
  refine (Settled.poll [] List.nodup_nil (fun _ hr => absurd hr List.not_mem_nil) rfl h hplace hrest).arrives fun q hq => ?_
  obtain ⟨hrest, -, h⟩ := hq
  refine (h.test htested hcondition hplace.part hrest hend).arrives fun q hq => ?_
  obtain ⟨hrest, h⟩ := hq
  rw [Tree.round_eq]
  split at hrest
  · next holds =>
    rw [if_pos holds]
    refine (hbody hplace.part.part.part.part hrest h).bind fun flow memory q hq => ?_
    -- Behind the body, and behind the label that `continue` jumps to, there is the step.
    have hstepped : ∀ q, q.rest = stepping ++ .instruction (.jump .always (.again again)) :: .label (.finish finish) :: rest →
        Settled s locals [] memory q → Leads s 0 q (Rounded s loop locals again (.label (.finish finish) :: rest) rest none
          (Tree.perform s.world s.outline step memory).2) := by
      intro q hrest h
      exact h.perform hstepping hstep hnext.part hrest
    cases flow with
    | normal => exact hq.2.skip hq.1 fun q hrest _ h => hstepped q hrest h
    | continues =>
      obtain ⟨⟨_, ⟨⟩, hlabel⟩, h⟩ := hq
      exact hstepped q (hlabel.eq_of_label hnext) h
    | breaks =>
      obtain ⟨⟨_, ⟨⟩, hlabel⟩, h⟩ := hq
      exact here ⟨hlabel.eq_of_label hend, h⟩
    | returns word => exact here hq
  · next holds =>
    rw [if_neg holds]
    exact here ⟨hrest, h⟩

/-- As many rounds as are made. The induction is on the rounds that are left; each takes a step at least, the jump back. -/
theorem Settled.rounds (h : Settled s locals [] memory p) (hplace : s.Within (.label (.again again) ::
      lines (roundParts again next finish safe tested body stepping) rest))
    (hrest : p.rest = lines (roundParts again next finish safe tested body stepping) rest) (count : Nat)
    (hcount : count ≤ fuel) : Arrives s count p (Ended s loop locals [] rest)
      (Tree.rounds (Tree.round s.world s.outline condition execution step) count memory) := by
  induction count generalizing p memory with
  | zero => exact here h.history
  | succ count ih =>
    have hround := (Settled.round htested hcondition hbody hstepping hstep h hplace.tail hrest).sooner hcount
    refine hround.bind fun result memory q hq => ?_
    cases result with
    | some flow => exact here hq
    | none =>
      obtain ⟨hrest, h⟩ := hq
      exact .of_step (Settled.step_jump hrest rfl hplace) (ih (h.next _) rfl (Nat.le_of_succ_le hcount))

theorem executes_whileLoop : Executes s fuel loop locals [] (whileLoop 0 again next finish safe tested body stepping)
      (Tree.rounds (Tree.round s.world s.outline condition execution step) fuel) := by
  intro memory p rest hplace hrest h
  rw [whileLoop, flatten_append] at hplace hrest
  have hentered : Leads s 0 p fun q =>
      q.rest = lines (roundParts again next finish safe tested body stepping) rest ∧ Settled s locals [] memory q :=
    h.skip hrest fun q hrest _ h => .here ⟨hrest, h⟩
  refine hentered.arrives fun q hq => ?_
  exact Settled.rounds htested hcondition hbody hstepping hstep hq.2 hplace hq.1 fuel (Nat.le_refl _)

end

end

/-! ### Trees -/

section

/-- The code that is made for a tree executes it. -/
def Performs (s : Setting) (fuel : Nat) (tree : Tree) : Prop :=
  ∀ ⦃loop : Option LoopLabels⦄ ⦃locals : List Nat⦄ ⦃number next : Nat⦄ ⦃made : Code⦄, s.Labelled loop →
    (code (s.around loop) 0 tree).Emits number made next → tree.StatementIn locals →
    Executes s fuel loop locals tree.declares made (tree.execute s.world s.outline fuel)

variable {s : Setting} {fuel number next : Nat} {loop : Option LoopLabels} {locals : List Nat} {made : Code}
  (hlabelled : s.Labelled loop)

include hlabelled

theorem executes_codeAll {trees : List Tree} (htrees : ∀ tree ∈ trees, Performs s fuel tree)
    (hemits : (codeAll (s.around loop) 0 trees).Emits number made next) (hin : Tree.BodyIn locals trees) :
    Executes s fuel loop locals [] made (Tree.executeAll s.world s.outline fuel trees) := by
  induction trees generalizing locals number made with
  | nil =>
    obtain ⟨rfl, rfl⟩ := emits_pure.1 hemits
    exact executes_nothing
  | cons tree rest ih =>
    obtain ⟨htree, hrest⟩ := List.forall_mem_cons.1 htrees
    simp only [codeAll, emits_bind, emits_pure] at hemits
    obtain ⟨_, _, hfirst, _, _, hothers, rfl, rfl⟩ := hemits
    exact executes_append (htree hlabelled hfirst hin.1) (ih hrest hothers hin.2)

theorem executes_codeOrNothing {tree : Option Tree} (htree : ∀ given ∈ tree.toList, Performs s fuel given)
    (hemits : (codeOrNothing (s.around loop) 0 tree).Emits number made next) (hin : Tree.ElseIn locals tree) :
    Executes s fuel loop locals [] made (Tree.executeOption s.world s.outline fuel tree) := by
  cases tree with
  | none =>
    obtain ⟨rfl, rfl⟩ := emits_pure.1 hemits
    exact executes_nothing
  | some tree => exact (List.forall_mem_singleton.1 htree hlabelled hemits hin).forget

omit hlabelled

theorem performs_code (tree : Tree) : Performs s fuel tree := by
  induction tree using Tree.of_children with
  | hstep tree ih =>
    intro loop locals number next made hlabelled hemits hin
    cases tree with
    | varDecl =>
      simp only [code, emits_bind, emits_pure] at hemits
      obtain ⟨_, _, hvalue, _, _, hlocated, rfl, rfl⟩ := hemits
      obtain ⟨id, rfl, hlocation, rfl⟩ := local_of_emits_location hlocated
      exact executes_varDecl (computes_codeOrNull hvalue hin) hlocation
    | block => exact executes_codeAll hlabelled ih hemits hin
    | ifElse =>
      obtain ⟨-, ih⟩ := List.forall_mem_cons.1 ih
      obtain ⟨hthen, helse⟩ := List.forall_mem_cons.1 ih
      simp only [code, emits_bind, emits_label, emits_pure] at hemits
      obtain ⟨_, _, ⟨rfl, rfl⟩, _, _, ⟨rfl, rfl⟩, _, _, hcondition, _, _, hpositive, _, _, hnegative, rfl, rfl⟩ := hemits
      exact executes_ifElse hcondition hin.1 (hthen hlabelled hpositive hin.2.1).forget
        (executes_codeOrNothing hlabelled helse hnegative hin.2.2)
    | whileLoop _ _ body =>
      have hperforms : Performs s fuel body := ih body (by simp [Tree.children])
      simp only [code, emits_bind, emits_label, emits_pure] at hemits
      obtain ⟨_, _, ⟨rfl, rfl⟩, _, _, ⟨rfl, rfl⟩, _, _, ⟨rfl, rfl⟩, _, _, ⟨rfl, rfl⟩, _, _, hcondition, _, _, hbody, _, _, hstep,
        rfl, rfl⟩ := hemits
      intro memory p rest hplace hrest h
      -- The labels that the body can jump to are those of this loop.
      have hparts := hplace
      rw [whileLoop, flatten_append] at hparts
      have hlabelled' : s.Labelled (some ⟨_, _⟩) :=
        ⟨hlabelled.ret, by rintro _ ⟨⟩; exact ⟨_, hparts.part.part.part.part.part.part.part.part.part⟩,
          by rintro _ ⟨⟩; exact ⟨_, hparts.part.part.part.part.part.part⟩⟩
      exact executes_whileLoop hcondition hin.1 (hperforms hlabelled' hbody hin.2.1).forget hstep hin.2.2 hplace hrest h
    | ret =>
      simp only [code, emits_bind, emits_pure] at hemits
      obtain ⟨_, _, hvalue, rfl, rfl⟩ := hemits
      exact executes_ret hlabelled (computes_codeOrNull hvalue hin)
    | breakLoop => exact executes_breakLoop hlabelled hemits
    | continueLoop => exact executes_continueLoop hlabelled hemits
    | funcDecl | classDecl => contradiction
    | _ => exact executes_value (computes_code hin hemits)

end

end NanScript
