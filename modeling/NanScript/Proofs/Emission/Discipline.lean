import NanScript.Proofs.Allocation.LinearScan
import NanScript.Proofs.Emission.Balance
import NanScript.Proofs.Emission.Linkage

/-!
# Stack discipline

Whatever way a path takes through a routine, every call finds the stack aligned, and every place of the code has one height of
the stack. Where the emitter was asked for the code of a tree, that height is the depth it was asked at; the code of the tree
leaves the stack as it found it, and pops nothing that it has not pushed itself.
-/

namespace NanScript

open Code Register
open List hiding all all_nil all_append

theorem pooled_linearScan (intervals : List Interval) : (linearScan intervals).Pooled := mem_pool_of_location?

theorem pooled_empty : Allocation.Pooled {} := by
  intro id r hlocation
  contradiction

/-! ### The lines of a routine -/

namespace Code

open Register

variable {whole rest : Code} {start p : Pointers} {floor : Int}

theorem fit_pushes {list : List Register} :
    Fit whole start floor p (instructions (list.map .push)) { p with stack := p.stack - 8 * list.length } := by
  induction list generalizing p with
  | nil => simp [instructions]
  | cons r list ih =>
    refine ⟨trivial, _, rfl, ?_⟩
    have hstack : p.stack - 8 * ↑(r :: list).length = p.stack - 8 - 8 * list.length := by
      rw [length_cons]
      omega
    rw [hstack]
    exact ih

variable {allocation : Allocation}

theorem fit_parameters {outline : Outline} {list : List Tree} {position first next : Nat} {made : Code}
    (hpooled : allocation.Pooled)
    (hemits : (Emit.parameters { outline, allocation } position list).Emits first made next) :
    Fit whole start floor p made p := by
  induction list generalizing position first made with
  | nil =>
    obtain ⟨rfl, rfl⟩ := Emit.emits_pure.1 hemits
    rfl
  | cons tree list ih =>
    cases tree with
    | var _ _ symbol =>
      simp only [Emit.parameters, Emit.emits_bind, Emit.emits_pure] at hemits
      obtain ⟨location, _, hlocated, _, _, hrest, rfl, rfl⟩ := hemits
      obtain ⟨id, rfl, hlocation, rfl⟩ := Emit.local_of_emits_location hlocated
      refine Fit.append ?_ (ih hrest)
      unfold parameter
      split
      · exact ⟨trivial, p, hpooled.shift_store hlocation _ _, rfl⟩
      · exact ⟨trivial, p, rfl, trivial, p, hpooled.shift_store hlocation _ _, rfl⟩
    | _ => exact ih hemits

/-- The poll at the beginning of a function saves the arguments. -/
theorem fit_poll_arguments {number : Nat} (haligned : p.stack % 16 = 0) (hfloor : p.stack ≤ floor)
    (hat : whole.At start (poll number (arguments.map .push) (arguments.reverse.map .pop) ++ rest) p) :
    Fit whole start floor p (poll number (arguments.map .push) (arguments.reverse.map .pop)) p := by
  have hscan : scan p (instructions ([.pollRequest, .jump .equal (.safe number)] ++ arguments.map .push ++
      [.call "gc_enter_safepoint" 0] ++ arguments.reverse.map .pop)) = some p := by
    simp [arguments, instructions, Line.shift, Instruction.shift, Pointers.overwrite]
  have hend : ∃ target, whole.At start (.label (.safe number) :: target) p := by
    rw [poll, append_assoc] at hat
    exact ⟨_, hat.behind hscan⟩
  simp [poll, arguments, instructions, Line.Fits, Line.shift, Instruction.shift, Pointers.overwrite, hend]
  omega

/-- The stack pointer behind the opening of a function. -/
def bodyBase (start : Pointers) (allocation : Allocation) : Int :=
  start.stack - 8 - 8 * allocation.saved.length - allocation.frameSize

theorem bodyBase_mod_sixteen (hstart : start.stack % 16 = 8) (allocation : Allocation) :
    bodyBase start allocation % 16 = 0 := by
  have hframe := allocation.frameSize_mod_sixteen
  unfold bodyBase
  omega

theorem fit_opening {name : String} {safe : Nat} {copies : Code} (hstart : start.stack % 16 = 8)
    (hcopies : ∀ p, Fit whole start start.stack p copies p)
    (hat : whole.At start (opening name allocation safe copies ++ rest) start) :
    Fit whole start start.stack start (opening name allocation safe copies)
      ⟨bodyBase start allocation, some (start.stack - 8)⟩ := by
  have hpoll := ((hat.tail rfl).tail rfl).tail rfl
  rw [append_eq, append_assoc] at hpoll
  refine ⟨trivial, _, rfl, trivial, _, rfl, trivial, _, rfl, ?_⟩
  refine (fit_poll_arguments ?_ ?_ hpoll).append (fit_pushes.append ⟨trivial, _, rfl, hcopies _⟩)
  · dsimp only
    omega
  · dsimp only
    omega

theorem fit_ending {base : Int} (hbase : base % 16 = 0) (hsaved : ∀ r ∈ allocation.saved, r ∈ pool) :
    Fit whole start start.stack ⟨base, some (start.stack - 8)⟩ (ending allocation) ⟨start.stack, none⟩ := by
  have hpops : ∀ r ∈ allocation.saved.reverse, r ≠ rsp ∧ r ≠ rbp := by
    intro r hr
    have hpool := hsaved r (mem_reverse.1 hr)
    exact ⟨fun hsame => absurd (hsame ▸ hpool) (by decide), fun hsame => absurd (hsame ▸ hpool) (by decide)⟩
  have hpopped : Fit whole start start.stack ⟨start.stack - 8 - ↑(8 * allocation.saved.length), some (start.stack - 8)⟩
      (instructions (allocation.saved.reverse.map .pop)) ⟨start.stack - 8, some (start.stack - 8)⟩ := by
    have hpopped := @fit_pops whole start start.stack
      ⟨start.stack - 8 - ↑(8 * allocation.saved.length), some (start.stack - 8)⟩ _ hpops
    have hback : start.stack - 8 - ↑(8 * allocation.saved.length) + 8 * allocation.saved.length = start.stack - 8 := by omega
    rw [length_reverse] at hpopped
    dsimp only at hpopped
    rw [hback] at hpopped
    exact hpopped (by omega)
  have hlines : instructions ([.unwind (8 * allocation.saved.length)] ++ allocation.saved.reverse.map .pop ++ [.pop rbp, .ret]) ++
      [.blank] = .instruction (.unwind (8 * allocation.saved.length)) ::
        (instructions (allocation.saved.reverse.map .pop) ++ [.instruction (.pop rbp), .instruction .ret, .blank]) := by
    simp [instructions]
  have hunwind : ∀ frame ∈ some (start.stack - 8), frame - ↑(8 * allocation.saved.length) ≤ start.stack := by
    rintro _ ⟨⟩
    omega
  have hreturned : start.stack - 8 + 8 = start.stack := Int.sub_add_cancel _ _
  refine ⟨hbase, _, rfl, trivial, _, rfl, ?_⟩
  rw [hlines]
  refine ⟨hunwind, _, rfl, hpopped.append ⟨Int.le_of_eq hreturned, _, rfl, hreturned, _, rfl, trivial, _, rfl, ?_⟩⟩
  rw [hreturned]
  rfl

theorem fit_preparation {globals : List String} (hstart : start.stack % 16 = 8) :
    Fit whole start start.stack start (preparation globals) ⟨start.stack - 8, some (start.stack - 8)⟩ := by
  have haligned : (start.stack - 8) % 16 = 0 := by omega
  have hroots : Fit whole start start.stack ⟨start.stack - 8, some (start.stack - 8)⟩ (globals.flatMap fun name =>
      instructions [.globalAddress rdi name, .call "aria_register_global_root" 1])
        ⟨start.stack - 8, some (start.stack - 8)⟩ := by
    induction globals with
    | nil => rfl
    | cons name rest ih => exact ⟨trivial, _, rfl, haligned, _, rfl, ih⟩
  exact ⟨trivial, _, rfl, trivial, _, rfl, trivial, _, rfl, trivial, _, rfl, haligned, _, rfl, hroots⟩

theorem fit_departure {hasMain : Bool} (haligned : p.stack % 16 = 0) : Fit whole start floor p (departure hasMain) p := by
  cases hasMain with
  | false => exact ⟨trivial, _, rfl, haligned, _, rfl, trivial, _, rfl, rfl⟩
  | true => exact ⟨haligned, _, rfl, trivial, _, rfl, haligned, _, rfl, trivial, _, rfl, rfl⟩

end Code

/-! ### Routines -/

variable {program : List Tree}

theorem isClosed_of_mem (hclosed : ∀ tree ∈ functionDeclarations program, tree.IsClosed) :
    ∀ tree ∈ program, tree.IsClosed := by
  intro tree htree
  cases tree with
  | varDecl => exact hclosed _ (mem_flatMap.2 ⟨_, htree, mem_singleton_self _⟩)
  | funcDecl => exact hclosed _ (mem_flatMap.2 ⟨_, htree, mem_singleton_self _⟩)
  | _ => trivial

namespace Site.Initials

variable {program : List Tree} {parts : List Piece} {number next : Nat} {p : Pointers}

theorem levels (hinitials : Initials program number parts next) : Piece.Levels p.stack p parts p := by
  induction hinitials with
  | nil => rfl
  | global hinitial _ ih => exact Piece.levels_append.2 ⟨_, hinitial.levels (Int.add_zero _), _, rfl, ih⟩
  | other _ _ ih => exact ih

theorem fitted (hinitials : Initials program number parts next) (hclosed : ∀ tree ∈ program, tree.IsClosed) {whole : Code}
    {start : Pointers} (haligned : p.stack % 16 = 0) : Piece.Fitted whole start p.stack p parts p := by
  have haligned' : (p.stack + 8 * (0 : Nat)) % 16 = 0 := by omega
  induction hinitials with
  | nil => rfl
  | global hinitial _ ih =>
    obtain ⟨hvalue, hrest⟩ := forall_mem_cons.1 hclosed
    exact Piece.fitted_append.2
      ⟨_, hinitial.fitted haligned' (Int.le_refl _) hvalue, _, ⟨trivial, _, rfl, rfl⟩, ih hrest⟩
  | other _ _ ih => exact ih (forall_mem_cons.1 hclosed).2

end Site.Initials

namespace Plan.IsRoutine

open Piece

variable {program : List Tree} {outline : Outline} {plan : Plan} {whole : Code} {start middle : Pointers}

section

variable (hroutine : plan.IsRoutine program outline)

include hroutine

theorem pooled : plan.allocation.Pooled := by
  cases hroutine with
  | entry => exact pooled_empty
  | function => exact pooled_linearScan _

theorem fit_around (hstart : start.stack % 16 = 8) {rest : Code} (hat : whole.At start (plan.front ++ rest) start) :
    ∃ middle, middle.stack % 16 = 0 ∧ middle.stack < start.stack ∧
      Fit whole start start.stack start plan.front middle ∧
      ∃ last, Fit whole start start.stack middle plan.back last := by
  cases hroutine with
  | entry =>
    have haligned : (start.stack - 8) % 16 = 0 := by omega
    exact ⟨_, haligned, Int.sub_lt_self _ (by decide), fit_preparation hstart, _, fit_departure haligned⟩
  | @function _ _ _ list body _ _ _ _ _ hcopies =>
    have haligned := bodyBase_mod_sixteen hstart (linearScan (liveIntervals list body))
    refine ⟨_, haligned, ?_, fit_opening hstart (fun _ => fit_parameters (pooled_linearScan _) hcopies) hat, _,
      fit_ending haligned fun r hr => (mem_filter.1 hr).1⟩
    dsimp only [bodyBase]
    omega

theorem levels : Levels middle.stack middle plan.parts middle := by
  cases hroutine with
  | entry hinitials => exact hinitials.levels
  | function => exact ⟨Int.add_zero _, rfl⟩

section

variable (hclosed : ∀ tree ∈ functionDeclarations program, tree.IsClosed)

include hclosed

theorem fitted (haligned : middle.stack % 16 = 0) (hat : whole.At start (all plan.parts ++ plan.back) middle) :
    Fitted whole start middle.stack middle plan.parts middle := by
  cases hroutine with
  | entry hinitials => exact hinitials.fitted (isClosed_of_mem hclosed) haligned
  | function hfunction _ hbody =>
    obtain ⟨locals, hstatement, -⟩ := hclosed _ hfunction
    have hbody' : middle.stack + 8 * (0 : Nat) = middle.stack := Int.add_zero _
    rw [all_part, all_nil, append_nil] at hat
    have hend := (hat.behind (hbody.scan (pooled_linearScan _) _)).tail rfl
    refine ⟨?_, Int.le_refl _, .inr ⟨⟨locals, hstatement⟩, rfl, ⟨_, hend⟩, ?_, ?_⟩, rfl⟩
    · rw [hbody']
      exact haligned
    · exact fun _ hnone => nomatch hnone
    · exact fun _ hnone => nomatch hnone

theorem fit (hstart : start.stack % 16 = 8) : ∃ middle last, middle.stack % 16 = 0 ∧ middle.stack < start.stack ∧
      plan.code.At start (all plan.parts ++ plan.back) middle ∧
      Fitted plan.code start middle.stack middle plan.parts middle ∧
      Fit plan.code start start.stack start plan.code last := by
  obtain ⟨middle, haligned, hlow, hfront, last, hback⟩ := hroutine.fit_around hstart ⟨[], rfl, rfl⟩
  have hat : plan.code.At start (all plan.parts ++ plan.back) middle := ⟨plan.front, rfl, hfront.scan⟩
  have hfitted := hroutine.fitted hclosed haligned hat
  have hparts := hfitted.fit (fun site made next hpart => (hroutine.made site made next hpart).fitting hroutine.pooled) hat
  exact ⟨middle, last, haligned, hlow, hat, hfitted, hfront.append ((hparts.lower (Int.le_of_lt hlow)).append hback)⟩

end

end

end Plan.IsRoutine

/-! ### The parts of a routine -/

namespace Piece

variable (outline : Outline) (allocation : Allocation) (pieces : List Piece)

/-- The code that the emitter made for a site stands in the code of the pieces, in front of `back`. -/
inductive Inside : Site → Code → Nat → Code → Prop
  | part {front back : List Piece} {site : Site} {made : Code} {next : Nat}
      (hpieces : pieces = front ++ .part site made next :: back) : Inside site made next (all back)
  | within {outer : Site} {parts front back : List Piece} {last : Nat} {behind : Code} {site : Site} {made : Code} {next : Nat}
      (houter : Inside outer (all parts) last behind) (hshape : outer.Shape outline allocation parts last)
      (hgiven : Each (Site.Given outline allocation) parts) (hparts : parts = front ++ .part site made next :: back) :
      Inside site made next (all back ++ behind)

variable {outline allocation pieces} {whole rest : Code} {start p q : Pointers} {base floor : Int}
  {site : Site} {made : Code} {next : Nat}

theorem at_part {front back : List Piece} (hlevels : Levels base p (front ++ .part site made next :: back) q)
    (hfitted : Fitted whole start floor p (front ++ .part site made next :: back) q)
    (hgiven : Each (Site.Given outline allocation) (front ++ .part site made next :: back)) (hpooled : allocation.Pooled)
    (hat : whole.At start (all (front ++ .part site made next :: back) ++ rest) p) :
    ∃ middle, whole.At start (made ++ (all back ++ rest)) middle ∧ middle.stack + 8 * site.depth = base ∧
      site.Ready whole start middle := by
  obtain ⟨middle, hfront, hlevel, -⟩ := levels_append.1 hlevels
  have hmade : Each (Site.Made outline allocation) front := (each_append.1 hgiven).1.imp fun _ _ _ => Site.Given.toMade
  obtain ⟨middle', hfront', -, -, hready, -⟩ := fitted_append.1 hfitted
  rw [all_append, all_part, append_assoc, append_assoc] at hat
  have hscan := hfront.scan fun site made next hpart => (hmade site made next hpart).scan hpooled
  have hfit := hfront'.fit (fun site made next hpart => (hmade site made next hpart).fitting hpooled) hat
  obtain rfl := Option.some.inj (hscan.symm.trans hfit.scan)
  exact ⟨middle, hat.behind hscan, hlevel, hready⟩

/-- The code of a site stands at the level of its depth, wherever it is. -/
theorem Inside.at {back : Code} (hinside : Inside outline allocation pieces site made next back)
    (hlevels : Levels base p pieces q) (hfitted : Fitted whole start floor p pieces q)
    (hgiven : Each (Site.Given outline allocation) pieces) (hpooled : allocation.Pooled) (hbase : base % 16 = 0)
    (hat : whole.At start (all pieces ++ rest) p) : site.Given outline allocation made next ∧
      ∃ middle, whole.At start (made ++ (back ++ rest)) middle ∧ middle.stack + 8 * site.depth = base ∧
        site.Ready whole start middle := by
  induction hinside with
  | @part front back site made next hpieces =>
    subst hpieces
    exact ⟨hgiven _ _ _ (mem_append_right _ mem_cons_self), at_part hlevels hfitted hgiven hpooled hat⟩
  | within _ hshape hgiven hparts ih =>
    obtain ⟨-, middle, hat, hlevel, hready⟩ := ih
    have haligned := hlevel ▸ hbase
    have hfitted := hshape.fitted (fun site made next hpart => (hgiven site made next hpart).toMade.scan hpooled) hpooled hat
      haligned (Int.le_refl _) hready
    have hlevels := hshape.levels hpooled hlevel
    subst hparts
    rw [append_assoc]
    exact ⟨hgiven _ _ _ (mem_append_right _ mem_cons_self), at_part hlevels hfitted hgiven hpooled hat⟩

end Piece

/-! ### Discipline -/

/-- Routines are disciplined. At every site of the emitter the stack pointer is below that of the frame by just the words that
the emitter counts, before the code of the site and behind it, and the code pops nothing that it has not pushed itself. -/
theorem stack_discipline {source : String} (hsilent : (parse source).errors = []) {assembly : Assembly}
    (hassemble : assemble (parse source).program = .ok assembly) {routine : Code} (hroutine : routine ∈ assembly.code.routines)
    {start : Pointers} (hstart : start.stack % 16 = 8) :
    routine.Disciplined start ∧ ∃ (outline : Outline) (plan : Plan), Outline.ofProgram (parse source).program = .ok outline ∧
      plan.IsRoutine (parse source).program outline ∧ routine = plan.code ∧ ∃ base : Int, base % 16 = 0 ∧
        ∀ site made next back, Piece.Inside outline plan.allocation plan.parts site made next back →
          site.Given outline plan.allocation made next ∧
            routine.Keeps start (base - 8 * site.depth) made (back ++ plan.back) := by
  have hclosed := fun tree htree => @isClosed_of_parse source hsilent tree htree
  obtain ⟨outline, plans, hplanned, -, hroutines⟩ := routines_eq_of_assemble hassemble (isDeclaration_of_parse source)
  rw [hroutines] at hroutine
  obtain ⟨plan, hplan, rfl⟩ := List.mem_map.1 hroutine
  have hgiven := hplanned.given plan hplan
  have hplan := hplanned.routine plan hplan
  obtain ⟨middle, last, haligned, hlow, hat, hfitted, hfit⟩ := hplan.fit hclosed hstart
  refine ⟨hfit.disciplined hplan.unique, outline, plan, hplanned.outlined, hplan, rfl, middle.stack, haligned, ?_⟩
  intro site made next back hinside
  obtain ⟨hgiven, place, hplace, hlevel, hready⟩ := hinside.at hplan.levels hfitted hgiven hplan.pooled haligned hat
  have hheight : middle.stack - 8 * site.depth = place.stack := by omega
  have hfits := hgiven.toMade.fitting hplan.pooled hplace (hlevel ▸ haligned) (Int.le_refl _) hready
  rw [hheight]
  exact ⟨hgiven, hfit.keeps hplan.unique hplace hfits⟩

private def nestedSource : String := "func f(a) \x7b return a + g(1, f(2) * a.m(3), 3, 4, 5, 6, 7); \x7d"

/-- Calls inside the arguments of a call, which are more than fit into registers. -/
theorem stack_discipline_nested :
    (parse nestedSource).errors = [] ∧ ∃ assembly, assemble (parse nestedSource).program = .ok assembly ∧
      (assembly.code.routines.map fun routine => routine.countP Line.isCall) = [2, 16] ∧
      ∀ routine ∈ assembly.code.routines, routine.Disciplined ⟨8, none⟩ := by
  have hsilent : (parse nestedSource).errors = [] := by decide +kernel
  have hcalls : checked (parse nestedSource).program (fun assembly =>
      (assembly.code.routines.map fun routine => routine.countP Line.isCall) == [2, 16]) = true := by decide +kernel
  obtain ⟨assembly, hassemble, hcalls⟩ := exists_of_checked hcalls
  exact ⟨hsilent, assembly, hassemble, beq_iff_eq.1 hcalls, fun _ hroutine => (stack_discipline hsilent hassemble hroutine rfl).1⟩

end NanScript
