import NanScript.Proofs.Emission.Setting
import NanScript.Proofs.Locals

/-!
# The code of an expression

Running the code of an expression does what the evaluator does and leaves the value in `rax`. There is one lemma for each
shape of code, about any parts that compute something; the theorem about trees puts them together.
-/

namespace NanScript

open Code Emit Register
open List (append_assoc length_append)

namespace Setting

/-- What the code of the body refers to, inside of a loop or of none. -/
def around (s : Setting) (loop : Option LoopLabels) : Surroundings :=
  { outline := s.outline, allocation := s.allocation, loop }

/-- The code stands at the end of the function's code. -/
def Within (s : Setting) (code : Code) : Prop := code <:+ s.whole

variable {s : Setting} {line : Line} {front back : Code}

theorem Within.tail (hplace : s.Within (line :: back)) : s.Within back := (List.suffix_cons line back).trans hplace

theorem Within.behind (hplace : s.Within (front ++ back)) : s.Within back := (List.suffix_append front back).trans hplace

end Setting

/-- The value is in `rax`, and the code goes on with `rest`. -/
structure Computed (s : Setting) (locals : List Nat) (waiting : List Word) (rest : Code) (result : Word × Memory)
    (q : Processor) : Prop where
  rest : q.rest = rest
  value : q.registers .rax = result.1
  settled : Settled s locals waiting result.2 q

/-- The code computes a value. -/
def Computes (s : Setting) (locals : List Nat) (waiting : List Word) (made : Code)
    (computation : Memory.Computation Word) : Prop :=
  ∀ ⦃memory : Memory⦄ ⦃p : Processor⦄ ⦃rest : Code⦄, s.Within (made ++ rest) → p.rest = made ++ rest →
    Settled s locals waiting memory p → Leads s 0 p (Computed s locals waiting rest (computation memory))

/-- Code in the form in which it is run, line by line. -/
def Code.lines : List Code → Code → Code
  | [], rest => rest
  | part :: parts, rest => part ++ lines parts rest

theorem Setting.Within.part {s : Setting} {part rest : Code} {parts : List Code}
    (hplace : s.Within (lines (part :: parts) rest)) : s.Within (lines parts rest) := hplace.behind

theorem Code.flatten_append (parts : List Code) (rest : Code) : parts.flatten ++ rest = lines parts rest := by
  induction parts with
  | nil => rfl
  | cons part parts ih =>
    show (part ++ parts.flatten) ++ rest = part ++ lines parts rest
    rw [append_assoc, ih]

section

variable {s : Setting} {locals : List Nat} {waiting : List Word} {memory : Memory} {p : Processor} {rest : Code}
  {least : Nat} {post : Processor → Prop}

/-- A part of the code is run: it is enough to know how it goes on with the value in `rax`. -/
theorem Computes.run {part : Code} {computation : Memory.Computation Word} (hpart : Computes s locals waiting part computation)
    (h : Settled s locals waiting memory p) (hplace : s.Within (part ++ rest)) (hrest : p.rest = part ++ rest)
    (hnext : ∀ q, q.rest = rest → q.registers .rax = (computation memory).1 →
      Settled s locals waiting (computation memory).2 q → Leads s 0 q post) : Leads s 0 p post :=
  (hpart hplace hrest h).trans fun q hq => hnext q hq.rest hq.value hq.settled

/-- A call of the runtime is what the code ends with. -/
theorem Settled.answer {name : String} {total : Nat} (h : Settled s locals waiting memory p) (words : List Word)
    (hrest : p.rest = Code.runtime waiting.length name total ++ rest) (htotal : total ≤ arguments.length)
    (hwords : (arguments.take total).map p.registers = words) :
    Leads s 0 p (Computed s locals waiting rest (Memory.runtime s.world name words memory)) :=
  h.runtime words hrest htotal hwords fun _ hrest hrax h => .here ⟨hrest, hrax, h⟩

/-! ### Literals -/

theorem computes_runtime (name : String) :
    Computes s locals waiting (Code.runtime waiting.length name 0) (Memory.runtime s.world name []) := by
  intro memory p rest _ hrest h
  exact h.answer [] hrest (by decide) rfl

variable {word : Word}

theorem computes_literal {instruction : Instruction} (name : String)
    (hexecute : ∀ p : Processor, p.execute s.world s.noise s.whole instruction = some (p.set .rdi word)) :
    Computes s locals waiting (instructions [instruction] ++ Code.runtime waiting.length name 1)
      (Memory.runtime s.world name [word]) := by
  intro memory p rest _ hrest h
  rw [append_assoc] at hrest
  refine h.set .rdi word hrest (by decide) (hexecute _) fun q hrest _ hregisters h => ?_
  exact h.answer [word] hrest (by decide) (by rw [hregisters]; rfl)

variable {skip data : Nat} {content : String}

theorem Settled.skipText (h : Settled s locals waiting memory p)
    (hplace : s.Within (Code.text skip data content ++ rest)) (hrest : p.rest = Code.text skip data content ++ rest)
    (hnext : ∀ q, q.rest = rest → q.registers = p.registers → Settled s locals waiting memory q → Leads s least q post)
    : Leads s least p post :=
  h.jump hrest rfl hplace.tail.tail hnext

theorem Setting.Within.lookup (hplace : s.Within (Code.text skip data content ++ rest)) :
    lookup data s.whole = some (Text.utf8 content) :=
  lookup_of_suffix s.unique hplace.tail

theorem computes_str : Computes s locals waiting
      (Code.text skip data content ++ instructions [.textAddress .rdi data] ++ Code.runtime waiting.length "dyn_new_str" 1)
      (Memory.runtime s.world "dyn_new_str" [.text (Text.utf8 content)]) := by
  intro memory p rest hplace hrest h
  rw [append_assoc, append_assoc] at hplace hrest
  refine h.skipText hplace hrest fun q hrest _ h => ?_
  refine h.text hrest (by decide) hplace.lookup fun q hrest _ hregisters h => ?_
  exact h.answer [_] hrest (by decide) (by rw [hregisters]; rfl)

/-! ### Operators -/

variable {operand left right condition positive negative object index value : Code}
  {first second third : Memory.Computation Word} {number : Nat}

theorem computes_unary (op : UnaryOp) (hoperand : Computes s locals waiting operand first) :
    Computes s locals waiting (unary waiting.length op operand) (do
      let word ← first
      Memory.runtime s.world op.function [word]) := by
  intro memory p rest hplace hrest h
  rw [unary, flatten_append] at hplace hrest
  refine hoperand.run h hplace hrest fun q hrest hrax h => ?_
  refine h.set .rdi (q.registers .rax) hrest (by decide) rfl fun q' hrest _ hregisters h => ?_
  have hname : unaryOperator op = op.function := by cases op <;> rfl
  rw [hname] at hrest
  refine h.answer [(first memory).1] hrest (by decide) ?_
  rw [hregisters, ← hrax]
  rfl

section

variable (hleft : Computes s locals waiting left first)

include hleft

/-- Two operands, and a function of the runtime that gets both. -/
theorem computes_pair (name : String) (hright : ∀ word, Computes s locals (word :: waiting) right second) :
    Computes s locals waiting [left, instructions [.push rax], right,
      instructions [.move rsi rax, .pop rdi], Code.runtime waiting.length name 2].flatten (do
      let one ← first
      let two ← second
      Memory.runtime s.world name [one, two]) := by
  intro memory p rest hplace hrest h
  rw [flatten_append] at hplace hrest
  refine hleft.run h hplace hrest fun q hrest hone h => ?_
  refine h.push hrest fun q hrest _ h => ?_
  refine (hright _).run h hplace.part.part hrest fun q hrest htwo h => ?_
  refine h.set .rsi (q.registers .rax) hrest (by decide) rfl fun q hrest _ hrsi h => ?_
  refine h.pop hrest (by decide) fun q hrest _ hrdi h => ?_
  refine h.answer [(first memory).1, (second (first memory).2).1] hrest (by decide) ?_
  rw [hrdi, hrsi, ← hone, ← htwo]
  rfl

theorem computes_binary (op : BinaryOp) (hright : ∀ word, Computes s locals (word :: waiting) right second) :
    Computes s locals waiting (binary waiting.length op left right) (do
      let one ← first
      let two ← second
      Memory.runtime s.world op.function [one, two]) := by
  have hname : operator op = op.function := by cases op <;> rfl
  rw [← hname]
  exact computes_pair hleft _ hright

variable (hright : Computes s locals waiting right second)

include hright

theorem computes_shortCircuit {skip : Condition} (goes : Bool)
    (hskip : ∀ p : Processor, p.taken skip = (p.zero == goes)) :
    Computes s locals waiting (shortCircuit waiting.length number skip left right) (do
      let one ← first
      let holds ← Memory.truth s.world one
      if holds = goes then second else return one) := by
  intro memory p rest hplace hrest h
  rw [shortCircuit, flatten_append] at hplace hrest
  refine hleft.run h hplace hrest fun q hrest hrax h => ?_
  refine h.push hrest fun q' hrest hregisters h => ?_
  refine h.truth hrest fun q'' hrest hzero h => ?_
  rw [hregisters, hrax] at hzero h
  refine h.pop hrest (by decide) fun q hrest hzero' hregisters h => ?_
  have hflag : q.taken skip = !((Memory.truth s.world (first memory).1 (first memory).2).1 == goes) := by
    rw [hskip, hzero', hzero]
    cases (Memory.truth s.world (first memory).1 (first memory).2).1 <;> cases goes <;> rfl
  show Leads s 0 q (Computed s locals waiting rest
    ((if (Memory.truth s.world (first memory).1 (first memory).2).1 = goes then second else pure (first memory).1) _))
  by_cases hgoes : (Memory.truth s.world (first memory).1 (first memory).2).1 = goes
  · rw [if_pos hgoes]
    rw [hgoes, beq_self_eq_true] at hflag
    refine h.pass hrest hflag fun q hrest _ h => ?_
    refine hright.run h hplace.part.part.part.part hrest fun q hrest hrax h => ?_
    exact h.skip hrest fun q hrest hregisters h => .here ⟨hrest, hregisters ▸ hrax, h⟩
  · rw [if_neg hgoes]
    rw [beq_eq_false_iff_ne.2 hgoes] at hflag
    refine h.jump hrest hflag hplace.part.part.part.part.part fun q' hrest hregisters' h => .here ⟨hrest, ?_, h⟩
    rw [hregisters', hregisters]
    rfl

theorem computes_and :
    Computes s locals waiting (shortCircuit waiting.length number .zero left right) (do
      let one ← first
      if ← Memory.truth s.world one then second else return one) :=
  computes_shortCircuit hleft hright true fun p => (beq_true p.zero).symm

theorem computes_or :
    Computes s locals waiting (shortCircuit waiting.length number .nonzero left right) (do
      let one ← first
      if ← Memory.truth s.world one then return one else second) := by
  have hsame : ∀ (one : Word) (holds : Bool),
      (if holds then return one else second) = if holds = false then second else return one := by
    intro one holds
    cases holds <;> rfl
  simp only [hsame]
  exact computes_shortCircuit hleft hright false fun p => (beq_false p.zero).symm

end

theorem computes_ternary {other finish : Nat} (hcondition : Computes s locals waiting condition first)
    (hpositive : Computes s locals waiting positive second) (hnegative : Computes s locals waiting negative third) :
    Computes s locals waiting (ternary waiting.length other finish condition positive negative) (do
      let word ← first
      if ← Memory.truth s.world word then second else third) := by
  intro memory p rest hplace hrest h
  rw [ternary, flatten_append] at hplace hrest
  refine hcondition.run h hplace hrest fun q hrest hrax h => ?_
  refine h.truth hrest fun q hrest hzero h => ?_
  rw [hrax] at hzero h
  show Leads s 0 q (Computed s locals waiting rest
    ((if (Memory.truth s.world (first memory).1 (first memory).2).1 = true then second else third) _))
  by_cases hholds : (Memory.truth s.world (first memory).1 (first memory).2).1 = true
  · rw [if_pos hholds]
    rw [hholds] at hzero
    refine h.pass hrest hzero fun q hrest _ h => ?_
    refine hpositive.run h hplace.part.part.part hrest fun q hrest hrax h => ?_
    exact h.jump hrest rfl hplace.part.part.part.part.part.part.part
      fun q hrest hregisters h => .here ⟨hrest, hregisters ▸ hrax, h⟩
  · rw [if_neg hholds]
    rw [Bool.eq_false_iff.2 hholds] at hzero
    refine h.jump hrest hzero hplace.part.part.part.part.part fun q hrest _ h => ?_
    refine hnegative.run h hplace.part.part.part.part.part.part hrest fun q hrest hrax h => ?_
    exact h.skip hrest fun q hrest hregisters h => .here ⟨hrest, hregisters ▸ hrax, h⟩

/-! ### Objects and lists -/

variable {name : String}

section

variable (hobject : Computes s locals waiting object first)

include hobject

theorem computes_get : Computes s locals waiting (text skip data name ++ get waiting.length data object) (do
      let word ← first
      Memory.runtime s.world "aria_obj_get" [word, .text (Text.utf8 name)]) := by
  intro memory p rest hplace hrest h
  rw [append_assoc, Code.get, flatten_append] at hplace hrest
  refine h.skipText hplace hrest fun q hrest _ h => ?_
  refine hobject.run h hplace.behind hrest fun q hrest hrax h => ?_
  refine h.set .rdi (q.registers .rax) hrest (by decide) rfl fun q' hrest _ hrdi h => ?_
  refine h.text hrest (by decide) hplace.lookup fun q hrest _ hrsi h => ?_
  refine h.answer [(first memory).1, _] hrest (by decide) ?_
  rw [hrsi, hrdi, ← hrax]
  rfl

theorem computes_set (hvalue : ∀ word, Computes s locals (word :: waiting) value second) :
    Computes s locals waiting (text skip data name ++ set waiting.length data object value) (do
      let one ← first
      let two ← second
      Memory.runtime s.world "aria_obj_set" [one, .text (Text.utf8 name), two]) := by
  intro memory p rest hplace hrest h
  rw [append_assoc, Code.set, flatten_append] at hplace hrest
  refine h.skipText hplace hrest fun q hrest _ h => ?_
  refine hobject.run h hplace.behind hrest fun q hrest hone h => ?_
  refine h.push hrest fun q hrest _ h => ?_
  refine (hvalue _).run h hplace.behind.part.part hrest fun q hrest htwo h => ?_
  refine h.set .rdx (q.registers .rax) hrest (by decide) rfl fun q hrest _ hrdx h => ?_
  refine h.pop hrest (by decide) fun q hrest _ hrdi h => ?_
  refine h.text hrest (by decide) hplace.lookup fun q hrest _ hrsi h => ?_
  refine h.answer [(first memory).1, _, (second (first memory).2).1] hrest (by decide) ?_
  rw [hrsi, hrdi, hrdx, ← hone, ← htwo]
  rfl

theorem computes_indexSet (hindex : ∀ word, Computes s locals (word :: waiting) index second)
    (hvalue : ∀ word word', Computes s locals (word' :: word :: waiting) value third) :
    Computes s locals waiting (indexSet waiting.length object index value) (do
      let one ← first
      let two ← second
      let three ← third
      Memory.runtime s.world "list_set" [one, two, three]) := by
  intro memory p rest hplace hrest h
  rw [indexSet, flatten_append] at hplace hrest
  refine hobject.run h hplace hrest fun q hrest hone h => ?_
  refine h.push hrest fun q hrest _ h => ?_
  refine (hindex _).run h hplace.part.part hrest fun q hrest htwo h => ?_
  refine h.push hrest fun q hrest _ h => ?_
  refine (hvalue _ _).run h hplace.part.part.part.part hrest fun q hrest hthree h => ?_
  refine h.set .rdx (q.registers .rax) hrest (by decide) rfl fun q hrest _ hrdx h => ?_
  refine h.pop hrest (by decide) fun q hrest _ hrsi h => ?_
  refine h.pop hrest (by decide) fun q hrest _ hrdi h => ?_
  refine h.answer [(first memory).1, (second (first memory).2).1, (third (second (first memory).2).2).1] hrest (by decide) ?_
  rw [hrdi, hrsi, hrdx, ← hone, ← htwo, ← hthree]
  rfl

end

theorem Settled.method {sourceName : String} (h : Settled s locals (word :: waiting) memory p)
    (hplace : s.Within (Code.text skip data sourceName ++ (Code.method (waiting.length + 1) data name ++ rest)))
    (hrest : p.rest = Code.text skip data sourceName ++ (Code.method (waiting.length + 1) data name ++ rest)) :
    Leads s 0 p fun q => q.rest = rest ∧ Settled s locals (word :: waiting)
      (Memory.runtime s.world "aria_obj_set" [word, .text (Text.utf8 sourceName), .function name] memory).2 q := by
  refine h.skipText hplace hrest fun q hrest _ h => ?_
  rw [Code.method, append_assoc] at hrest
  refine h.top hrest fun q hrest hrdi h => ?_
  refine h.text hrest (by decide) hplace.lookup fun q hrest _ hrsi h => ?_
  refine h.set .rdx (.function name) hrest (by decide) rfl fun q hrest _ hrdx h => ?_
  refine h.runtime [word, _, .function name] hrest (by decide) ?_ fun q hrest _ h => .here ⟨hrest, h⟩
  rw [hrdx, hrsi, hrdi]
  rfl

variable {next : Nat} {made : Code}

theorem Settled.methods {methods : List Tree} (h : Settled s locals (word :: waiting) memory p)
    (hemits : (Emit.methods (waiting.length + 1) methods).Emits number made next) (hplace : s.Within (made ++ rest))
    (hrest : p.rest = made ++ rest) : Leads s 0 p fun q =>
      q.rest = rest ∧ Settled s locals (word :: waiting) (Memory.install s.world word methods memory).2 q := by
  induction methods generalizing number made p memory with
  | nil =>
    obtain ⟨rfl, rfl⟩ := Emit.emits_pure.1 hemits
    exact .here ⟨hrest, h⟩
  | cons tree methods ih =>
    cases tree with
    | funcDecl _ name sourceName _ _ =>
      simp only [Emit.methods, Emit.emits_bind, Emit.emits_pure] at hemits
      obtain ⟨⟨key, data⟩, _, htext, _, _, hmethods, rfl, rfl⟩ := hemits
      obtain ⟨rfl, rfl, rfl⟩ := emits_text.1 htext
      rw [append_assoc, append_assoc] at hplace hrest
      refine (h.method hplace hrest).trans fun q hq => ?_
      obtain ⟨hrest, h⟩ := hq
      exact ih h hmethods hplace.behind.behind hrest
    | _ => exact ih h hemits hplace hrest

variable {loop : Option LoopLabels}

theorem computes_new {className : String}
    (hemits : (new (s.around loop) waiting.length className).Emits number made next) :
    Computes s locals waiting made (do
      let word ← Memory.runtime s.world "aria_alloc_object" []
      Memory.install s.world word ((s.outline.methods? className).getD [])
      return word) := by
  unfold Emit.new at hemits
  split at hemits
  · next methods hmethods =>
    have hmethods : s.outline.methods? className = some methods := hmethods
    simp only [emits_bind, emits_pure] at hemits
    obtain ⟨_, _, hinstalled, rfl, rfl⟩ := hemits
    rw [hmethods, Option.getD_some]
    intro memory p rest hplace hrest h
    rw [Code.new, flatten_append] at hplace hrest
    refine h.runtime [] hrest (by decide) rfl fun q hrest hrax h => ?_
    refine h.push hrest fun q' hrest _ h => ?_
    rw [hrax] at h
    refine (h.methods hinstalled hplace.part.part hrest).trans fun q hq => ?_
    obtain ⟨hrest, h⟩ := hq
    exact h.pop hrest (by decide) fun q hrest _ hregisters h => .here ⟨hrest, by rw [hregisters]; rfl, h⟩
  · exact absurd hemits not_emits_throw

theorem Settled.item (h : Settled s locals waiting memory p) (hvalue : Computes s locals (word :: waiting) value first)
    (hword : p.registers .rax = word) (hplace : s.Within (item waiting.length value ++ rest))
    (hrest : p.rest = item waiting.length value ++ rest) :
    Leads s 0 p fun q => q.rest = rest ∧ q.registers .rax = word ∧ Settled s locals waiting
      (Memory.runtime s.world "list_push" [word, (first memory).1] (first memory).2).2 q := by
  rw [Code.item, flatten_append] at hplace hrest
  refine h.push hrest fun q hrest _ h => ?_
  rw [hword] at h
  refine hvalue.run h hplace.part hrest fun q hrest hrax h => ?_
  refine h.set .rsi (q.registers .rax) hrest (by decide) rfl fun q hrest _ hrsi h => ?_
  refine h.top hrest fun q hrest hrdi h => ?_
  refine h.runtime [word, (first memory).1] hrest (by decide) ?_ fun q hrest _ h => ?_
  · rw [hrdi, hrsi, ← hrax]
    rfl
  · exact h.pop hrest (by decide) fun q hrest _ hregisters h => .here ⟨hrest, by rw [hregisters]; rfl, h⟩

/-! ### Calls -/

/-- The code pushes words, the first on top. -/
def Pushes (s : Setting) (locals : List Nat) (waiting : List Word) (made : Code)
    (computation : Memory.Computation (List Word)) : Prop :=
  ∀ ⦃memory : Memory⦄ ⦃p : Processor⦄ ⦃rest : Code⦄, s.Within (made ++ rest) → p.rest = made ++ rest →
    Settled s locals waiting memory p → Leads s 0 p fun q =>
      q.rest = rest ∧ Settled s locals ((computation memory).1 ++ waiting) (computation memory).2 q

theorem Settled.reserved {pad : Nat} (h : Settled s locals waiting memory p) (hpad : pad < 2)
    (hrest : p.rest = reserved pad ++ rest)
    (hnext : ∀ q padding, padding.length = pad → q.rest = rest → Settled s locals (padding ++ waiting) memory q →
      Leads s least q post) : Leads s least p post := by
  have hcases : pad = 0 ∨ pad = 1 := by omega
  rcases hcases with rfl | rfl
  · exact hnext p [] rfl hrest h
  · exact h.reserve hrest fun q word hrest _ h => hnext q [word] rfl hrest h

theorem Settled.released {front : List Word} {words : Nat} (h : Settled s locals (front ++ waiting) memory p)
    (hwords : front.length = words) (hrest : p.rest = released words ++ rest)
    (hnext : ∀ q, q.rest = rest → q.registers = p.registers → Settled s locals waiting memory q → Leads s least q post) :
    Leads s least p post := by
  unfold Code.released at hrest
  by_cases hnone : words > 0
  · rw [if_pos hnone] at hrest
    exact h.release hrest (by rw [hwords]) hnext
  · rw [if_neg hnone] at hrest
    obtain rfl := List.length_eq_zero_iff.1 (hwords.trans (Nat.eq_zero_of_not_pos hnone))
    exact hnext p hrest rfl h

/-- The words of a call lie on the stack, above padding if there has to be some. The first go to their registers, the call is
made, and what is left on the stack is given up. -/
structure Prepared (s : Setting) (locals : List Nat) (waiting words : List Word) (jump : Instruction) (rest : Code)
    (memory : Memory) (q : Processor) : Prop where
  rest : q.rest = lines [instructions ((arguments.take words.length).map .pop), instructions [jump],
    released (stackArguments words.length + padding waiting.length words.length)] rest
  stacked : ∃ padding : List Word, padding.length = Code.padding waiting.length words.length ∧
    Settled s locals (words ++ (padding ++ waiting)) memory q

section

variable {words : List Word} {jump : Instruction}

theorem Prepared.load (hprepared : Prepared s locals waiting words jump rest memory p) :
    Leads s 0 p fun q => q.rest = .instruction jump ::
        (released (stackArguments words.length + padding waiting.length words.length) ++ rest) ∧
      (arguments.take words.length).map q.registers = words.take arguments.length ∧
      q.registers .r10 = p.registers .r10 ∧ ∃ padding : List Word,
        padding.length = Code.padding waiting.length words.length ∧
        Settled s locals (words.drop arguments.length ++ (padding ++ waiting)) memory q := by
  obtain ⟨hrest, padding, hpadding, h⟩ := hprepared
  have hsplit : words ++ (padding ++ waiting) =
      words.take arguments.length ++ (words.drop arguments.length ++ (padding ++ waiting)) := by
    rw [← append_assoc (words.take _), List.take_append_drop]
  rw [hsplit] at h
  have hlength : (words.take arguments.length).length = (arguments.take words.length).length := by
    rw [List.length_take, List.length_take]
    omega
  refine Settled.pops _ ((by decide : arguments.Nodup).sublist (List.take_sublist _ _)) ?_ hlength h hrest
    fun q hrest hfront hothers h => .here ⟨hrest, hfront, hothers .r10 ?_, padding, hpadding, h⟩
  · intro r hr
    have hall : ∀ r ∈ arguments, r ∈ scratch := by decide
    exact hall r (List.mem_of_mem_take hr)
  · exact fun hr => absurd (List.mem_of_mem_take hr) (by decide)

theorem length_passed {padding : List Word} (hpadding : padding.length = Code.padding waiting.length words.length) :
    (words.drop arguments.length ++ (padding ++ waiting)).length % 2 = 0 := by
  have hdropped : (words.drop arguments.length).length = stackArguments words.length := List.length_drop
  rw [length_append, length_append, hdropped, hpadding]
  unfold Code.padding
  omega

theorem Prepared.invoke {target : Word} (hprepared : Prepared s locals waiting words jump rest memory p)
    (hjump : ∀ q : Processor, q.registers .r10 = p.registers .r10 →
      q.execute s.world s.noise s.whole jump = q.call s.world s.noise target words.length) :
    Leads s 0 p (Computed s locals waiting rest (Memory.call s.world target words memory)) := by
  refine hprepared.load.trans fun q hq => ?_
  obtain ⟨hrest, hfront, hr10, padding, hpadding, h⟩ := hq
  have hdropped : (words.drop arguments.length).length = stackArguments words.length := List.length_drop
  have hwords : (arguments.take words.length).map q.registers ++ words.drop arguments.length = words := by
    rw [hfront, List.take_append_drop]
  refine h.call target hdropped (length_passed hpadding) hwords hrest (hjump _ hr10) fun q spoiled hspoiled hrest hrax h => ?_
  rw [← append_assoc] at h
  refine h.released ?_ hrest fun q hrest hregisters h => .here ⟨hrest, hregisters ▸ hrax, h⟩
  rw [length_append, hspoiled, hdropped, hpadding]

end

variable {arguments target : Code} {words : Memory.Computation (List Word)} {total : Nat}

section

variable (harguments : ∀ padding : List Word, padding.length = Code.padding waiting.length total → Pushes s locals (padding ++
  waiting) arguments words)

include harguments

/-- The arguments are pushed, above padding if there has to be some. -/
theorem Settled.prepare (h : Settled s locals waiting memory p) {parts : List Code}
    (hplace : s.Within (lines (Code.reserved (Code.padding waiting.length total) :: arguments :: parts) rest))
    (hrest : p.rest = lines (Code.reserved (Code.padding waiting.length total) :: arguments :: parts) rest)
    (hnext : ∀ q padding, padding.length = Code.padding waiting.length total → q.rest = lines parts rest →
      Settled s locals ((words memory).1 ++ (padding ++ waiting)) (words memory).2 q → Leads s 0 q post) :
    Leads s 0 p post := by
  have hpad : Code.padding waiting.length total < 2 := Nat.mod_lt _ (by decide)
  refine h.reserved hpad hrest fun q padding hpadding hrest h => ?_
  refine (harguments padding hpadding hplace.part hrest h).trans fun q hq => ?_
  exact hnext q padding hpadding hq.1 hq.2

theorem computes_direct (name : String) (htotal : ∀ memory, (words memory).1.length = total) :
    Computes s locals waiting (Code.call waiting.length total arguments [] (.call name)) (do
      let list ← words
      Memory.call s.world (.function name) list) := by
  intro memory p rest hplace hrest h
  rw [Code.call, flatten_append] at hplace hrest
  refine h.prepare harguments hplace hrest fun q padding hpadding hrest h => ?_
  rw [← htotal memory] at hpadding hrest
  exact Prepared.invoke ⟨hrest, padding, hpadding, h⟩ fun _ _ => rfl

/-- What is called is computed when the arguments are already on the stack. -/
theorem computes_through (htotal : ∀ memory, (words memory).1.length = total)
    (htarget : ∀ list padding : List Word, list.length = total → padding.length = Code.padding waiting.length total →
      Computes s locals (list ++ (padding ++ waiting)) target first) : Computes s locals waiting
      (Code.call waiting.length total arguments (target ++ instructions [.move r10 rax]) .callAddress)
      (do
        let list ← words
        let word ← first
        Memory.call s.world word list) := by
  intro memory p rest hplace hrest h
  rw [Code.call, flatten_append] at hplace hrest
  refine h.prepare harguments hplace hrest fun q padding hpadding hrest h => ?_
  have hcallee := hplace.part.part
  rw [lines, append_assoc] at hrest hcallee
  refine (htarget _ padding (htotal memory) hpadding hcallee hrest h).trans fun q hq => ?_
  obtain ⟨hrest, hrax, h⟩ := hq
  refine h.set .r10 (q.registers .rax) hrest (by decide) rfl fun q hrest _ hregisters h => ?_
  rw [← htotal memory] at hpadding hrest
  refine Prepared.invoke ⟨hrest, padding, hpadding, h⟩ fun q' hr10 => ?_
  show q'.call s.world s.noise (q'.registers .r10) _ = _
  rw [hr10, hregisters, Function.update_self, hrax]

theorem computes_method {depth : Nat} (htotal : ∀ memory, (words memory).1.length + 1 = total)
    (hdepth : depth + 1 = waiting.length + Code.padding waiting.length total + total)
    (hobject : ∀ list padding : List Word, list.length + 1 = total → padding.length = Code.padding waiting.length total →
      Computes s locals (list ++ (padding ++ waiting)) object first) : Computes s locals waiting
      (Code.call waiting.length total arguments (Code.text skip data name ++ receiver depth data object) .callAddress)
      (do
        let list ← words
        let receiver ← first
        let method ← Memory.runtime s.world "aria_obj_get" [receiver, .text (Text.utf8 name)]
        Memory.call s.world method (receiver :: list)) := by
  intro memory p rest hplace hrest h
  rw [Code.call, flatten_append] at hplace hrest
  refine h.prepare harguments hplace hrest fun q padding hpadding hrest h => ?_
  have hcallee := hplace.part.part
  rw [lines, append_assoc] at hrest hcallee
  refine h.skipText hcallee hrest fun q hrest _ h => ?_
  have hreceiver := hcallee.behind
  rw [receiver, flatten_append] at hrest hreceiver
  refine (hobject _ padding (htotal memory) hpadding hreceiver hrest h).trans fun q hq => ?_
  obtain ⟨hrest, hrax, h⟩ := hq
  refine h.push hrest fun q' hrest hpush h => ?_
  rw [hrax] at h
  refine h.set .rdi (q'.registers .rax) hrest (by decide) rfl fun q hrest _ hrdi h => ?_
  refine h.text hrest (by decide) hcallee.lookup fun q hrest _ hrsi h => ?_
  have hlength : depth + 1 = ((first (words memory).2).1 :: ((words memory).1 ++ (padding ++ waiting))).length := by
    have htotal := htotal memory
    rw [List.length_cons, length_append, length_append, hpadding]
    omega
  rw [hlength] at hrest
  refine h.runtime [(first (words memory).2).1, .text (Text.utf8 name)] hrest (by decide) ?_ fun q hrest hmethod h => ?_
  · rw [hrsi, hrdi, hpush, hrax]
    rfl
  refine h.set .r10 (q.registers .rax) hrest (by decide) rfl fun q hrest _ hregisters h => ?_
  rw [← htotal memory] at hpadding hrest
  have hprepared : Prepared s locals waiting ((first (words memory).2).1 :: (words memory).1) (.callAddress _) rest _ q :=
    ⟨hrest, padding, hpadding, h⟩
  refine hprepared.invoke fun q' hr10 => ?_
  show q'.call s.world s.noise (q'.registers .r10) _ = _
  rw [hr10, hregisters, Function.update_self, hmethod]
  rfl

end

/-! ### Names -/

variable {symbol : Symbol}

theorem Settled.loadGlobal (h : Settled s locals waiting memory p)
    (hrest : p.rest = .instruction (.move rax (.global name)) :: rest) :
    Leads s 0 p (Computed s locals waiting rest (memory.globals name, memory)) := by
  refine h.set .rax (memory.globals name) hrest (by decide) ?_ fun q hrest _ hregisters h => .here ⟨hrest, ?_, h⟩
  · rw [← h.globals]
    rfl
  · rw [hregisters]
    rfl

theorem computes_load (hemits : (load (s.around loop) name symbol).Emits number made next) (hin : symbol.In locals)
    : Computes s locals waiting made (Memory.load s.outline name symbol) := by
  intro memory p rest _ hrest h
  cases symbol with
  | localVar id =>
    simp only [load, emits_bind, emits_location, emits_pure] at hemits
    obtain ⟨location, _, ⟨hlocation, rfl⟩, rfl, rfl⟩ := hemits
    exact h.load (hin id rfl) hlocation hrest fun q hrest hrax h => .here ⟨hrest, hrax, h⟩
  | global =>
    obtain ⟨rfl, rfl⟩ := emits_pure.1 hemits
    exact h.loadGlobal hrest
  | unresolved =>
    simp only [load] at hemits
    have hload : Memory.load s.outline name .unresolved memory =
        (if s.outline.isGlobal name = true then memory.globals name else .function name, memory) := by
      show (if s.outline.isGlobal name = true then _ else _ : Memory.Computation Word) memory = _
      split <;> rfl
    rw [hload]
    split at hemits
    · next hglobal =>
      have hglobal : s.outline.isGlobal name = true := hglobal
      obtain ⟨rfl, rfl⟩ := emits_pure.1 hemits
      rw [if_pos hglobal]
      exact h.loadGlobal hrest
    · next hfunction =>
      have hfunction : ¬ s.outline.isGlobal name = true := hfunction
      obtain ⟨rfl, rfl⟩ := emits_pure.1 hemits
      rw [if_neg hfunction]
      refine h.set .rax (.function name) hrest (by decide) rfl fun q hrest _ hregisters h => .here ⟨hrest, ?_, h⟩
      rw [hregisters]
      rfl

theorem Settled.storeName (h : Settled s locals waiting memory p)
    (hemits : (Emit.store (s.around loop) name symbol).Emits number made next) (hin : symbol.In locals)
    (hrest : p.rest = made ++ rest) : Leads s 0 p (Computed s locals waiting rest
      (p.registers .rax, (Memory.store name symbol (p.registers .rax) memory).2)) := by
  cases symbol with
  | localVar id =>
    simp only [Emit.store, Emit.emits_bind, Emit.emits_location, Emit.emits_pure] at hemits
    obtain ⟨location, _, ⟨hlocation, rfl⟩, rfl, rfl⟩ := hemits
    refine h.store hlocation (by decide) hrest fun q hrest hregisters h => .here ⟨hrest, hregisters .rax (by decide), ?_⟩
    exact h.fewer fun _ hid => List.mem_cons_of_mem _ hid
  | global =>
    obtain ⟨rfl, rfl⟩ := Emit.emits_pure.1 hemits
    exact h.storeGlobal hrest fun q hrest hregisters h => .here ⟨hrest, congrFun hregisters _, h⟩
  | unresolved =>
    simp only [Emit.store] at hemits
    split at hemits
    · obtain ⟨rfl, rfl⟩ := Emit.emits_pure.1 hemits
      exact h.storeGlobal hrest fun q hrest hregisters h => .here ⟨hrest, congrFun hregisters _, h⟩
    · exact absurd hemits Emit.not_emits_throw

theorem computes_assign (hvalue : Computes s locals waiting value first)
    (hemits : (Emit.store (s.around loop) name symbol).Emits number made next) (hin : symbol.In locals) :
    Computes s locals waiting (value ++ made) (do
      let word ← first
      Memory.store name symbol word
      return word) := by
  intro memory p rest hplace hrest h
  rw [append_assoc] at hplace hrest
  refine hvalue.run h hplace hrest fun q hrest hrax h => ?_
  have hstored := h.storeName hemits hin hrest
  rw [hrax] at hstored
  exact hstored

end

/-! ### Trees -/

theorem value_of_direct? {s : Setting} {loop : Option LoopLabels} {callee : Tree} {name : String}
    (hdirect : Emit.direct? (s.around loop) callee = some name) (memory : Memory) :
    callee.value s.world s.outline memory = (.function name, memory) := by
  cases callee with
  | var _ name' symbol =>
    simp only [Emit.direct?, Option.ite_none_right_eq_some, Bool.and_eq_true, Bool.not_eq_true', Option.some.injEq] at hdirect
    obtain ⟨⟨hsymbol, hglobal⟩, rfl⟩ := hdirect
    have hglobal : s.outline.isGlobal name' = false := hglobal
    cases symbol with
    | unresolved =>
      show (if s.outline.isGlobal name' = true then _ else _ : Memory.Computation Word) memory = _
      rw [hglobal]
      rfl
    | global | localVar _ => contradiction
  | _ => contradiction

theorem length_backward (world : World) (outline : Outline) (trees : List Tree) (memory : Memory) :
    (Tree.backward world outline trees memory).1.length = trees.length := by
  induction trees generalizing memory with
  | nil => rfl
  | cons tree rest ih => exact congrArg Nat.succ (ih memory)

section

/-- The code that is made for a tree computes its value. -/
def Compiles (s : Setting) (locals : List Nat) (loop : Option LoopLabels) (tree : Tree) : Prop :=
  ∀ ⦃waiting : List Word⦄ ⦃depth number next : Nat⦄ ⦃made : Code⦄, waiting.length = depth →
    (code (s.around loop) depth tree).Emits number made next → Computes s locals waiting made (tree.value s.world s.outline)

variable {s : Setting} {locals : List Nat} {loop : Option LoopLabels} {waiting : List Word} {number next : Nat} {made : Code}
  {trees : List Tree}

theorem appends_codeItems (htrees : ∀ tree ∈ trees, Compiles s locals loop tree)
    (hemits : (codeItems (s.around loop) waiting.length trees).Emits number made next) {memory : Memory} {p : Processor}
    {rest : Code} {word : Word} (hplace : s.Within (made ++ rest)) (hrest : p.rest = made ++ rest)
    (hrax : p.registers .rax = word) (h : Settled s locals waiting memory p) :
    Leads s 0 p (Computed s locals waiting rest (word, (Tree.appendItems s.world s.outline word trees memory).2)) := by
  induction trees generalizing number made memory p with
  | nil =>
    obtain ⟨rfl, rfl⟩ := emits_pure.1 hemits
    exact .here ⟨hrest, hrax, h⟩
  | cons tree trees ih =>
    obtain ⟨htree, htrees⟩ := List.forall_mem_cons.1 htrees
    simp only [codeItems, emits_bind, emits_pure] at hemits
    obtain ⟨_, _, hitem, _, _, hitems, rfl, rfl⟩ := hemits
    rw [append_assoc] at hplace hrest
    refine (h.item (htree rfl hitem) hrax hplace hrest).trans fun q hq => ?_
    obtain ⟨hrest, hrax, h⟩ := hq
    exact ih htrees hitems hplace.behind hrest hrax h

theorem pushes_codeArguments (htrees : ∀ tree ∈ trees, Compiles s locals loop tree) {depth : Nat}
    (hdepth : waiting.length = depth) (hemits : (codeArguments (s.around loop) depth trees).Emits number made next) :
    Pushes s locals waiting made (Tree.backward s.world s.outline trees) := by
  induction trees generalizing number made next with
  | nil =>
    obtain ⟨rfl, rfl⟩ := emits_pure.1 hemits
    exact fun _ _ _ _ hrest h => .here ⟨hrest, h⟩
  | cons tree trees ih =>
    obtain ⟨htree, htrees⟩ := List.forall_mem_cons.1 htrees
    simp only [codeArguments, emits_bind, emits_pure] at hemits
    obtain ⟨_, _, hpushed, _, _, hargument, rfl, rfl⟩ := hemits
    intro memory p rest hplace hrest h
    rw [append_assoc, append_assoc] at hplace hrest
    refine (ih htrees hpushed hplace hrest h).trans fun q hq => ?_
    obtain ⟨hrest, h⟩ := hq
    have hdepth : ((Tree.backward s.world s.outline trees memory).1 ++ waiting).length = depth + trees.length := by
      rw [length_append, length_backward, hdepth, Nat.add_comm]
    refine (htree hdepth hargument hplace.behind hrest h).trans fun q hq => ?_
    obtain ⟨hrest, hrax, h⟩ := hq
    refine h.push hrest fun q hrest _ h => .here ⟨hrest, ?_⟩
    rw [hrax] at h
    exact h

/-- A call of anything but a method. -/
theorem computes_call {note : Note} {callee : Tree} (hget : ∀ note object name, callee ≠ .get note object name)
    (hcallee : Compiles s locals loop callee) (htrees : ∀ tree ∈ trees, Compiles s locals loop tree)
    (hemits : (code (s.around loop) waiting.length (.call note callee trees)).Emits number made next) :
    Computes s locals waiting made (do
      let words ← Tree.backward s.world s.outline trees
      let target ← callee.value s.world s.outline
      Memory.call s.world target words) := by
  have hlength := length_backward s.world s.outline trees
  obtain ⟨pushed, middle, hpushed, ⟨name, hdirect, rfl, rfl⟩ | ⟨target, -, htarget, rfl⟩⟩ := emits_call hget hemits
  · intro memory p rest hplace hrest h
    have hcall := computes_direct (fun padding hpadding =>
      pushes_codeArguments htrees (by rw [length_append, hpadding, Nat.add_comm]) hpushed) name hlength hplace hrest h
    refine hcall.trans fun q hq => .here ?_
    show Computed s locals waiting rest (Memory.call s.world (callee.value s.world s.outline _).1 _ _) q
    rw [value_of_direct? hdirect]
    exact hq
  · refine computes_through (fun padding hpadding => pushes_codeArguments htrees ?_ hpushed) hlength
      fun list padding hlist hpadding => hcallee ?_ htarget
    · rw [length_append, hpadding, Nat.add_comm]
    · rw [length_append, length_append, hlist, hpadding]
      omega

/-- The tree and its children: what a method is called on stands two levels below the call. -/
theorem compiles_of_valueIn {tree : Tree} (hvalue : tree.ValueIn locals) :
    Compiles s locals loop tree ∧ ∀ child ∈ tree.children, Compiles s locals loop child := by
  induction tree using Tree.of_children with
  | hstep tree ih =>
    have hbelow := fun child hchild => ih child hchild (hvalue.child child hchild)
    have hchildren := fun child hchild => (hbelow child hchild).1
    refine ⟨?_, hchildren⟩
    rintro waiting _ number next made rfl hemits
    cases tree with
      (simp only [Tree.children, List.forall_mem_cons, List.not_mem_nil, false_implies, implies_true, and_true] at hchildren)
    | int =>
      obtain ⟨rfl, rfl⟩ := emits_pure.1 hemits
      exact computes_literal "dyn_new_int" fun _ => rfl
    | float =>
      obtain ⟨rfl, rfl⟩ := emits_pure.1 hemits
      exact computes_literal "dyn_new_float" fun _ => rfl
    | bool =>
      obtain ⟨rfl, rfl⟩ := emits_pure.1 hemits
      exact computes_literal "dyn_new_bool" fun _ => rfl
    | null =>
      obtain ⟨rfl, rfl⟩ := emits_pure.1 hemits
      exact computes_runtime "dyn_new_null"
    | new => exact computes_new hemits
    | var => exact computes_load hemits hvalue
    | binary _ op =>
      rw [code] at hemits
      cases hop : op.isShortCircuit with
      | true =>
        rw [if_pos hop] at hemits
        simp only [emits_bind, emits_label, emits_pure] at hemits
        obtain ⟨_, _, ⟨rfl, rfl⟩, _, _, hleft, _, _, hright, rfl, rfl⟩ := hemits
        cases op with
        | and => exact computes_and (hchildren.1 rfl hleft) (hchildren.2 rfl hright)
        | or => exact computes_or (hchildren.1 rfl hleft) (hchildren.2 rfl hright)
        | _ => contradiction
      | false =>
        rw [if_neg (Bool.eq_false_iff.1 hop)] at hemits
        simp only [emits_bind, emits_pure] at hemits
        obtain ⟨_, _, hleft, _, _, hright, rfl, rfl⟩ := hemits
        have hcomputes := computes_binary (hchildren.1 rfl hleft) op fun _ => hchildren.2 rfl hright
        cases op with
        | and | or => contradiction
        | _ => exact hcomputes
    | call _ callee arguments =>
      cases callee with
      | get _ object =>
        simp only [code, emits_bind, emits_pure] at hemits
        obtain ⟨_, _, hpushed, ⟨_, _⟩, _, htext, _, _, hobject, rfl, rfl⟩ := hemits
        obtain ⟨rfl, rfl, rfl⟩ := emits_text.1 htext
        have hlength := length_backward s.world s.outline arguments
        refine computes_method (fun padding hpadding => pushes_codeArguments hchildren.2 ?_ hpushed)
          (fun memory => congrArg Nat.succ (hlength memory)) rfl fun list padding hlist hpadding =>
          (hbelow _ List.mem_cons_self).2 object List.mem_cons_self ?_ hobject
        · rw [length_append, hpadding, Nat.add_comm]
        · rw [length_append, length_append, hpadding]
          omega
      | _ => exact computes_call (fun _ _ _ => Tree.noConfusion) hchildren.1 hchildren.2 hemits
    | str =>
      simp only [code, emits_bind, emits_pure] at hemits
      obtain ⟨⟨_, _⟩, _, htext, rfl, rfl⟩ := hemits
      obtain ⟨rfl, rfl, rfl⟩ := emits_text.1 htext
      exact computes_str
    | array =>
      simp only [code, emits_bind, emits_pure] at hemits
      obtain ⟨_, _, hitems, rfl, rfl⟩ := hemits
      intro memory p rest hplace hrest h
      rw [append_assoc] at hplace hrest
      refine h.runtime [] hrest (by decide) rfl fun q hrest hrax h => ?_
      exact appends_codeItems hchildren hitems hplace.behind hrest hrax h
    | assign =>
      simp only [code, emits_bind, emits_pure] at hemits
      obtain ⟨_, _, hcode, _, _, hstore, rfl, rfl⟩ := hemits
      exact computes_assign (hchildren rfl hcode) hstore hvalue.1
    | unary _ op =>
      simp only [code, emits_bind, emits_pure] at hemits
      obtain ⟨_, _, hoperand, rfl, rfl⟩ := hemits
      exact computes_unary op (hchildren rfl hoperand)
    | ternary =>
      simp only [code, emits_bind, emits_label, emits_pure] at hemits
      obtain ⟨_, _, ⟨rfl, rfl⟩, _, _, ⟨rfl, rfl⟩, _, _, hcondition, _, _, hpositive, _, _, hnegative, rfl, rfl⟩ := hemits
      exact computes_ternary (hchildren.1 rfl hcondition) (hchildren.2.1 rfl hpositive) (hchildren.2.2 rfl hnegative)
    | get =>
      simp only [code, emits_bind, emits_pure] at hemits
      obtain ⟨⟨_, _⟩, _, htext, _, _, hobject, rfl, rfl⟩ := hemits
      obtain ⟨rfl, rfl, rfl⟩ := emits_text.1 htext
      exact computes_get (hchildren rfl hobject)
    | set =>
      simp only [code, emits_bind, emits_pure] at hemits
      obtain ⟨⟨_, _⟩, _, htext, _, _, hobject, _, _, hcode, rfl, rfl⟩ := hemits
      obtain ⟨rfl, rfl, rfl⟩ := emits_text.1 htext
      exact computes_set (hchildren.1 rfl hobject) fun _ => hchildren.2 rfl hcode
    | indexGet =>
      simp only [code, emits_bind, emits_pure] at hemits
      obtain ⟨_, _, hobject, _, _, hindex, rfl, rfl⟩ := hemits
      exact computes_pair (hchildren.1 rfl hobject) _ fun _ => hchildren.2 rfl hindex
    | indexSet =>
      simp only [code, emits_bind, emits_pure] at hemits
      obtain ⟨_, _, hobject, _, _, hindex, _, _, hcode, rfl, rfl⟩ := hemits
      exact computes_indexSet (hchildren.1 rfl hobject) (fun _ => hchildren.2.1 rfl hindex) fun _ _ => hchildren.2.2 rfl hcode
    | _ => contradiction

theorem computes_code {tree : Tree} (hvalue : tree.ValueIn locals)
    (hemits : (code (s.around loop) waiting.length tree).Emits number made next) :
    Computes s locals waiting made (tree.value s.world s.outline) :=
  (compiles_of_valueIn hvalue).1 rfl hemits

end

end NanScript
