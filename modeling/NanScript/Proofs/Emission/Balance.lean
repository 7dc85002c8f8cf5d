import NanScript.Proofs.Emission.Path
import NanScript.Proofs.Emission.Piece
import NanScript.Proofs.Locals

/-!
# The stack in emitted code

The depth that the emitter is asked at is the number of words that wait on the stack. `Shape.levels` says so for the parts of
each construct, and that each construct leaves the stack where it found it. Hence all lines of emitted code fit: a call finds
the stack aligned, a pop finds a word that the construct has pushed itself, and a jump leads to a place of the same height.
-/

namespace NanScript

open NanScript.Tree Register Instruction
open List hiding all all_nil all_append

attribute [local simp] Code.instructions Line.shift Instruction.shift Pointers.overwrite Line.Fits

variable {site : Site} {tree : Option Tree} {name : String}

/-- Locals live in the frame or in registers of the pool. -/
def Allocation.Pooled (allocation : Allocation) : Prop :=
  ∀ {id : Nat} {r : Register}, allocation.location? id = some (.register r) → r ∈ pool

theorem Allocation.Pooled.shift_store {allocation : Allocation} (hpooled : allocation.Pooled) {id : Nat} {location : Location}
    (hlocation : allocation.location? id = some location) (source : Place) (p : Pointers) :
    (move location.place source).shift p = some p := by
  cases location with
  | frame offset => rfl
  | register r =>
    have hpool := hpooled hlocation
    cases r with
    | rbx | r12 | r13 | r14 | r15 => rfl
    | _ => exact absurd hpool (by decide)

namespace Code

open Register

variable {p : Pointers} {depth total : Nat} {content : String} {skip data : Nat} {number : Nat}

@[simp] theorem scan_runtime : scan p (runtime depth name total) = some p := by
  unfold runtime
  split <;> simp

@[simp] theorem scan_truth : scan p (truth depth) = some p := by
  simp [truth]

@[simp] theorem scan_text : scan p (text skip data content) = some p := rfl

@[simp] theorem scan_poll : scan p (poll number [] []) = some p := rfl

section

variable {whole : Code} {start : Pointers} {floor : Int} {p q middle : Pointers} {made rest : Code}

@[simp] theorem fit_nil : Fit whole start floor p [] q ↔ p = q := Iff.rfl

@[simp] theorem fit_cons {line : Line} : Fit whole start floor p (line :: rest) q ↔
    line.Fits whole start floor p ∧ ∃ middle, line.shift p = some middle ∧ Fit whole start floor middle rest q := Iff.rfl

@[simp] theorem fit_append {front back : Code} : Fit whole start floor p (front ++ back) q ↔
    ∃ middle, Fit whole start floor p front middle ∧ Fit whole start floor middle back q :=
  ⟨Fit.of_append, fun ⟨_, hfront, hback⟩ => hfront.append hback⟩

theorem Fit.iff_eq (hfit : Fit whole start floor p made p) : Fit whole start floor p made q ↔ p = q := by
  constructor
  · intro hfit'
    exact Option.some.inj (hfit.scan.symm.trans hfit'.scan)
  · rintro rfl
    exact hfit

variable {depth : Nat}

section

variable (haligned : (p.stack + 8 * depth) % 16 = 0) (hfloor : p.stack ≤ floor)

include haligned hfloor

theorem fit_runtime {total : Nat} : Fit whole start floor p (runtime depth name total) p := by
  unfold runtime
  split
  · next hodd =>
    have hodd : depth % 2 = 1 := eq_of_beq hodd
    simp [Fit]
    omega
  · next heven =>
    have heven : depth % 2 ≠ 1 := fun hodd => heven (beq_iff_eq.2 hodd)
    simp [Fit]
    omega

theorem fit_truth : Fit whole start floor p (truth depth) p := by
  have hmove : Fit whole start floor p (instructions [.move rdi rax]) p := ⟨trivial, p, rfl, rfl⟩
  have htest : Fit whole start floor p (instructions [.testResult]) p := ⟨trivial, p, rfl, rfl⟩
  exact (hmove.append (fit_runtime haligned hfloor)).append htest

end

theorem fit_runtime_iff {stack : Int} {frame : Option Int} {total : Nat}
    (haligned : (stack + 8 * depth) % 16 = 0) (hfloor : stack ≤ floor) :
    Fit whole start floor ⟨stack, frame⟩ (runtime depth name total) q ↔ ⟨stack, frame⟩ = q :=
  (fit_runtime haligned hfloor).iff_eq

theorem fit_truth_iff {stack : Int} {frame : Option Int} (haligned : (stack + 8 * depth) % 16 = 0)
    (hfloor : stack ≤ floor) : Fit whole start floor ⟨stack, frame⟩ (truth depth) q ↔ ⟨stack, frame⟩ = q :=
  (fit_truth haligned hfloor).iff_eq

theorem At.textEnd (hat : whole.At start (text skip data content ++ rest) p) :
    ∃ target, whole.At start (.label (.textEnd skip) :: target) p := ⟨rest, @At.behind _ _ [_, _] _ _ _ hat rfl⟩

theorem fit_text (hend : ∃ target, whole.At start (.label (.textEnd skip) :: target) p) :
    Fit whole start floor p (text skip data content) p := ⟨hend, p, rfl, trivial, p, rfl, trivial, p, rfl, rfl⟩

theorem At.safe (hat : whole.At start (poll number [] [] ++ rest) p) :
    ∃ target, whole.At start (.label (.safe number) :: target) p := ⟨rest, @At.behind _ _ [_, _, _] _ _ _ hat rfl⟩

theorem fit_poll (hend : ∃ target, whole.At start (.label (.safe number) :: target) p)
    (haligned : p.stack % 16 = 0) : Fit whole start floor p (poll number [] []) p :=
  ⟨trivial, p, rfl, hend, p, rfl, haligned, p, rfl, trivial, p, rfl, rfl⟩

theorem fit_pops {list : List Register} (hlist : ∀ r ∈ list, r ≠ .rsp ∧ r ≠ .rbp) (hfloor : p.stack + 8 * list.length ≤ floor) :
    Fit whole start floor p (instructions (list.map .pop)) { p with stack := p.stack + 8 * list.length } := by
  induction list generalizing p with
  | nil => simp
  | cons r rest ih =>
    have hshift : (pop r).shift p = some { p with stack := p.stack + 8 } := by
      obtain ⟨hrsp, hrbp⟩ := hlist r mem_cons_self
      cases r with
      | rsp => contradiction
      | rbp => contradiction
      | _ => rfl
    simp only [length_cons, Int.natCast_add, Int.cast_ofNat_Int] at hfloor ⊢
    refine ⟨?_, _, hshift, ?_⟩
    · show p.stack + 8 ≤ floor
      omega
    · have hrest := @ih { p with stack := p.stack + 8 } (fun other hother => hlist other (mem_cons_of_mem _ hother))
        (by dsimp only; omega)
      have hstack : p.stack + 8 + 8 * rest.length = p.stack + 8 * (rest.length + 1) := by omega
      rw [hstack] at hrest
      exact hrest

end

theorem scan_pops {list : List Register} (hlist : ∀ r ∈ list, r ≠ rsp ∧ r ≠ rbp) :
    scan p (instructions (list.map .pop)) = some { p with stack := p.stack + 8 * list.length } :=
  (@fit_pops [] p _ _ _ hlist (Int.le_refl _)).scan

theorem arguments_pop : ∀ r ∈ arguments, r ≠ rsp ∧ r ≠ rbp := by decide

theorem scan_callEnd {jump : Nat → Instruction} (hjump : ∀ p, (jump total).shift p = some p) :
    scan { p with stack := p.stack - 8 * padding depth total - 8 * total } (Site.callEnd depth total jump) = some p := by
  have hpops : ∀ r ∈ arguments.take total, r ≠ rsp ∧ r ≠ rbp := fun r hr => arguments_pop r (mem_of_mem_take hr)
  have hlength : min total arguments.length + stackArguments total = total := by
    rw [stackArguments]
    omega
  have hcall : ∀ q, scan q (instructions [jump total]) = some q := by
    intro q
    show (jump total).shift q >>= _ = _
    rw [hjump]
    rfl
  rw [Site.callEnd, scan_append, scan_append, scan_pops hpops]
  show scan _ (instructions [jump total]) >>= _ = _
  rw [hcall]
  show scan _ (released (stackArguments total + padding depth total)) = _
  have hback : ∀ stack : Int, stack = p.stack → (⟨stack, p.frame⟩ : Pointers) = p := by
    rintro stack rfl
    rfl
  unfold released
  split <;> simp <;> exact hback _ (by omega)

theorem fit_reserved {whole : Code} {start : Pointers} {floor : Int} :
    Fit whole start floor p (reserved (padding depth total)) { p with stack := p.stack - 8 * padding depth total } := by
  unfold reserved
  have hpadding : padding depth total = 0 ∨ padding depth total = 1 := Nat.mod_two_eq_zero_or_one _
  rcases hpadding with hpadding | hpadding <;> simp [hpadding]

@[simp] theorem scan_reserved :
    scan p (reserved (padding depth total)) = some { p with stack := p.stack - 8 * padding depth total } :=
  (@fit_reserved p depth total [] p 0).scan

theorem fit_callEnd {whole : Code} {start : Pointers} {floor : Int} {jump : Nat → Instruction}
    (hjump : ∀ q, (jump total).shift q = some q)
    (hcall : ∀ q, q.stack % 16 = 0 → (Line.instruction (jump total)).Fits whole start floor q)
    (haligned : (p.stack + 8 * depth) % 16 = 0) (hfloor : p.stack ≤ floor) :
    Fit whole start floor { p with stack := p.stack - 8 * padding depth total - 8 * total } (Site.callEnd depth total jump)
      p := by
  have hpops : ∀ r ∈ arguments.take total, r ≠ rsp ∧ r ≠ rbp := fun r hr => arguments_pop r (mem_of_mem_take hr)
  have hlength : (arguments.take total).length + stackArguments total = total := by
    rw [length_take, stackArguments]
    omega
  have hpadding : (depth + stackArguments total + padding depth total) % 2 = 0 := by
    unfold padding
    omega
  have hpop := @fit_pops whole start floor { p with stack := p.stack - 8 * padding depth total - 8 * total } _ hpops
  generalize hpopped : (arguments.take total).length = popped at hlength hpop
  have hcalled : Fit whole start floor { p with stack := p.stack - 8 * padding depth total - 8 * total + 8 * popped }
      (instructions [jump total]) { p with stack := p.stack - 8 * padding depth total - 8 * total + 8 * popped } := by
    refine ⟨hcall _ ?_, _, hjump _, rfl⟩
    dsimp only
    omega
  have hback : ∀ stack : Int, stack = p.stack → (⟨stack, p.frame⟩ : Pointers) = p := by
    rintro stack rfl
    rfl
  refine ((hpop (by dsimp only; omega)).append hcalled).append ?_
  unfold released
  split
  · refine ⟨?_, _, rfl, hback _ ?_⟩
    · show _ + ((8 * _ : Nat) : Int) ≤ floor
      dsimp only
      omega
    · dsimp only
      omega
  · exact hback _ (by omega)

end Code

/-! ### Levels -/

/-- Pieces that can be read from the pointers `p` to the pointers `q`, and whose parts are asked for at the depth at which they
stand, when depth zero is at `base`. -/
def Piece.Levels (base : Int) : Pointers → List Piece → Pointers → Prop
  | p, [], q => p = q
  | p, .lines code :: rest, q => ∃ middle, code.scan p = some middle ∧ Levels base middle rest q
  | p, .part site _ _ :: rest, q => p.stack + 8 * site.depth = base ∧ Levels base p rest q

namespace Piece

variable {base : Int} {p q : Pointers} {rest : List Piece}

@[simp] theorem levels_nil : Levels base p [] q ↔ p = q := Iff.rfl

@[simp] theorem levels_lines {code : Code} :
    Levels base p (.lines code :: rest) q ↔ ∃ middle, code.scan p = some middle ∧ Levels base middle rest q := Iff.rfl

@[simp] theorem levels_part {made : Code} {next : Nat} :
    Levels base p (.part site made next :: rest) q ↔ p.stack + 8 * site.depth = base ∧ Levels base p rest q := Iff.rfl

@[simp] theorem levels_append {front back : List Piece} :
    Levels base p (front ++ back) q ↔ ∃ middle, Levels base p front middle ∧ Levels base middle back q := by
  induction front generalizing p with
  | nil => simp
  | cons piece front ih =>
    cases piece with
    | lines code =>
      simp only [cons_append, levels_lines, ih]
      constructor
      · rintro ⟨middle, hscan, last, hfront, hback⟩
        exact ⟨last, ⟨middle, hscan, hfront⟩, hback⟩
      · rintro ⟨last, ⟨middle, hscan, hfront⟩, hback⟩
        exact ⟨middle, hscan, last, hfront, hback⟩
    | part site made next => simp only [cons_append, levels_part, ih, exists_and_left, and_assoc]

end Piece

namespace Site

open Register Code Piece

variable {loop : Option LoopLabels} {depth number next : Nat} {pieces : List Piece} {base : Int} {p : Pointers}
  {outline : Outline} {allocation : Allocation} {trees : List Tree}

theorem Sequence.levels (hsequence : Sequence loop depth trees number pieces next) (hbase : p.stack + 8 * depth = base)
    : Levels base p pieces p := by
  induction hsequence with
  | nil => rfl
  | cons _ ih => exact ⟨hbase, ih⟩

theorem Items.levels (hitems : Items loop depth trees number pieces next) (hbase : p.stack + 8 * depth = base) :
    Levels base p pieces p := by
  induction hitems with
  | nil => rfl
  | cons _ ih =>
    simp [ih]
    omega

theorem Arguments.levels (harguments : Arguments loop depth trees number pieces next)
    (hbase : p.stack + 8 * depth = base) : Levels base p pieces { p with stack := p.stack - 8 * trees.length } := by
  induction harguments with
  | nil => simp
  | cons _ ih =>
    refine levels_append.2 ⟨_, ih, ?_⟩
    simp
    omega

theorem OrNull.levels (hvalue : OrNull loop depth tree number pieces next)
    (hbase : p.stack + 8 * depth = base) : Levels base p pieces p := by
  cases hvalue <;> simp [hbase]

theorem scan_methods {methods : List Tree} {made : Code} (hinstalled : Emit.Installed depth methods number made next) :
    scan p made = some p := by
  induction hinstalled with
  | nil => rfl
  | method _ ih => simp [Code.method, ih]
  | other _ ih => exact ih

/-- The depth of every part is the height at which it stands, and the whole leaves the stack where it found it. -/
theorem Shape.levels (hshape : site.Shape outline allocation pieces next) (hpooled : allocation.Pooled)
    (hbase : p.stack + 8 * site.depth = base) : Levels base p pieces p := by
  cases hshape with dsimp only at hbase
  | array hitems => exact ⟨p, scan_runtime, hitems.levels hbase⟩
  | assignLocal hlocation => simp [-shift, hbase, hpooled.shift_store hlocation]
  | @callMethod _ depth _ _ _ _ arguments _ _ _ _ _ harguments =>
    refine ⟨_, scan_reserved, levels_append.2 ⟨_, harguments.levels ?_, ?_⟩⟩
    · simp only [Int.natCast_add]
      omega
    · have hend := @scan_callEnd p depth (arguments.length + 1) .callAddress fun _ => rfl
      have hpushed : p.stack - 8 * padding depth (arguments.length + 1) - 8 * ↑(arguments.length + 1) =
          p.stack - 8 * padding depth (arguments.length + 1) - 8 * arguments.length - 8 := by omega
      rw [hpushed] at hend
      simp [hend]
      omega
  | callDirect hcallee hdirect harguments =>
    refine ⟨_, scan_reserved, levels_append.2 ⟨_, harguments.levels ?_, ?_⟩⟩
    · simp only [Int.natCast_add]
      omega
    · rw [levels_lines, scan_callEnd fun _ => rfl]
      simp
  | @callValue _ depth _ _ arguments _ _ _ _ _ hcallee hdirect harguments =>
    refine ⟨_, scan_reserved, levels_append.2 ⟨_, harguments.levels ?_, ?_⟩⟩
    · simp only [Int.natCast_add]
      omega
    · have hend := @scan_callEnd p depth arguments.length .callAddress fun _ => rfl
      simp [hend]
      omega
  | new hclass hmethods => simp [scan_methods (Emit.installed_of_emits hmethods)]
  | varDecl hinitial hlocation =>
    refine levels_append.2 ⟨p, hinitial.levels hbase, ?_⟩
    simp [-shift, hpooled.shift_store hlocation]
  | block hstatements => exact hstatements.levels hbase
  | ret hvalue => exact levels_append.2 ⟨p, hvalue.levels hbase, p, rfl, rfl⟩
  | ifElse hoption | whileLoop hoption =>
    have hoption : Levels base p _ p := hoption.sequence.levels hbase
    simpa [hbase] using hoption
  | binary | shortCircuit | set | indexGet | indexSet =>
    simp
    omega
  | assignGlobal | unary | ternary | get =>
    simp [hbase]
  | int | float | bool | null | str | varLocal | varGlobal | varFunction | breakLoop | continueLoop | funcDecl | classDecl =>
    simp

end Site

theorem Piece.Levels.scan {base : Int} {p q : Pointers} {pieces : List Piece} (hlevels : Levels base p pieces q)
    (hparts : Each (fun _ made _ => ∀ p, made.scan p = some p) pieces) : (all pieces).scan p = some q := by
  induction pieces generalizing p with
  | nil =>
    obtain rfl := hlevels
    rfl
  | cons piece rest ih =>
    cases piece with
    | lines code =>
      obtain ⟨middle, hscan, hrest⟩ := hlevels
      rw [all_lines, Code.scan_append, hscan]
      exact ih hrest (each_lines.1 hparts)
    | part site made next =>
      obtain ⟨hmade, hparts⟩ := each_part.1 hparts
      rw [all_part, Code.scan_append, hmade]
      exact ih hlevels.2 hparts

theorem Site.Made.scan {outline : Outline} {allocation : Allocation} {made : Code} {next : Nat}
    (hmade : site.Made outline allocation made next) (hpooled : allocation.Pooled) (p : Pointers) : made.scan p = some p := by
  induction hmade generalizing p with
  | intro hshape _ ih => exact (hshape.levels hpooled rfl).scan fun part made next hpart => ih part made next hpart

/-! ### All lines fit -/

theorem Tree.ElseIn.statementIn {locals : List Nat} (helse : ElseIn locals tree) :
    ∀ given ∈ tree, given.StatementIn locals := by
  rintro given rfl
  exact helse

/-- The labels that a statement may jump to stand where the pointers are `p`. -/
structure Code.Exits (whole : Code) (start p : Pointers) (loop : Option LoopLabels) : Prop where
  ret : ∃ target, whole.At start (.label .ret :: target) p
  finish : ∀ labels ∈ loop, ∃ target, whole.At start (.label (.finish labels.finish) :: target) p
  next : ∀ labels ∈ loop, ∃ target, whole.At start (.label (.next labels.next) :: target) p

namespace Site

open Register Code Piece

variable {whole : Code} {start p : Pointers} {rest : Code} {floor : Int}

/-- An expression may stand at any depth, a statement only where nothing waits on the stack. -/
def Ready (site : Site) (whole : Code) (start p : Pointers) : Prop :=
  (∃ locals, site.tree.ValueIn locals) ∨
    (∃ locals, site.tree.StatementIn locals) ∧ site.depth = 0 ∧ whole.Exits start p site.loop

/-- The code of a site fits wherever it stands. -/
def Fitting (site : Site) (made : Code) (_ : Nat) : Prop :=
  ∀ ⦃whole : Code⦄ ⦃start p : Pointers⦄ ⦃rest : Code⦄ ⦃floor : Int⦄, whole.At start (made ++ rest) p →
    (p.stack + 8 * site.depth) % 16 = 0 → p.stack ≤ floor → site.Ready whole start p → Fit whole start floor p made p

end Site

namespace Piece

section

variable {whole : Code} {start : Pointers} {floor : Int} {p q : Pointers} {rest : List Piece}

/-- Pieces of which the lines fit, and the parts find what they need. -/
def Fitted (whole : Code) (start : Pointers) (floor : Int) : Pointers → List Piece → Pointers → Prop
  | p, [], q => p = q
  | p, .lines code :: rest, q => ∃ middle, Code.Fit whole start floor p code middle ∧ Fitted whole start floor middle rest q
  | p, .part site _ _ :: rest, q => (p.stack + 8 * site.depth) % 16 = 0 ∧ p.stack ≤ floor ∧ site.Ready whole start p ∧
    Fitted whole start floor p rest q

@[simp] theorem fitted_nil : Fitted whole start floor p [] q ↔ p = q := Iff.rfl

@[simp] theorem fitted_lines {code : Code} : Fitted whole start floor p (.lines code :: rest) q ↔
    ∃ middle, Code.Fit whole start floor p code middle ∧ Fitted whole start floor middle rest q := Iff.rfl

@[simp] theorem fitted_part {made : Code} {next : Nat} :
    Fitted whole start floor p (.part site made next :: rest) q ↔ (p.stack + 8 * site.depth) % 16 = 0 ∧ p.stack ≤ floor ∧
      site.Ready whole start p ∧ Fitted whole start floor p rest q := Iff.rfl

@[simp] theorem fitted_append {front back : List Piece} : Fitted whole start floor p (front ++ back) q ↔
    ∃ middle, Fitted whole start floor p front middle ∧ Fitted whole start floor middle back q := by
  induction front generalizing p with
  | nil => simp
  | cons piece front ih =>
    cases piece with
    | lines code =>
      simp only [cons_append, fitted_lines, ih]
      constructor
      · rintro ⟨middle, hfit, last, hfront, hback⟩
        exact ⟨last, ⟨middle, hfit, hfront⟩, hback⟩
      · rintro ⟨last, ⟨middle, hfit, hfront⟩, hback⟩
        exact ⟨middle, hfit, last, hfront, hback⟩
    | part site made next => simp only [cons_append, fitted_part, ih, exists_and_left, and_assoc]

/-- Pieces fit if their lines do and their parts find what they need. -/
theorem Fitted.fit {rest : Code} {pieces : List Piece} (hfitted : Fitted whole start floor p pieces q)
    (hparts : Each Site.Fitting pieces) (hat : whole.At start (all pieces ++ rest) p) :
    Code.Fit whole start floor p (all pieces) q := by
  induction pieces generalizing p with
  | nil => exact hfitted
  | cons piece pieces ih =>
    cases piece with
    | lines code =>
      obtain ⟨middle, hfit, hfitted⟩ := hfitted
      rw [all_lines, append_assoc] at hat
      exact hfit.append (ih hfitted (each_lines.1 hparts) (hat.behind hfit.scan))
    | part site made next =>
      obtain ⟨haligned, hfloor, hready, hfitted⟩ := hfitted
      obtain ⟨hpart, hparts⟩ := each_part.1 hparts
      rw [all_part, append_assoc] at hat
      have hfit := hpart hat haligned hfloor hready
      exact hfit.append (ih hfitted hparts (hat.behind hfit.scan))

end

end Piece

namespace Site

open Register Code Piece

variable {loop : Option LoopLabels} {depth number next : Nat} {pieces : List Piece} {outline : Outline} {allocation : Allocation}
  {whole : Code} {start p : Pointers} {floor : Int} {locals : List Nat}

theorem Ready.of_value {tree : Tree} (hvalue : tree.ValueIn locals) :
    Ready ⟨loop, depth, tree, number⟩ whole start p := .inl ⟨locals, hvalue⟩

variable {trees : List Tree}

section

variable (haligned : (p.stack + 8 * depth) % 16 = 0) (hfloor : p.stack ≤ floor)

include haligned hfloor

theorem Sequence.fitted (hsequence : Sequence loop depth trees number pieces next) (hbody : BodyIn locals trees)
    (hdepth : depth = 0) (hexits : whole.Exits start p loop) : Fitted whole start floor p pieces p := by
  induction hsequence generalizing locals with
  | nil => rfl
  | cons _ ih =>
    obtain ⟨htree, hrest⟩ := hbody
    exact ⟨haligned, hfloor, .inr ⟨⟨_, htree⟩, hdepth, hexits⟩, ih hrest⟩

theorem Items.fitted (hitems : Items loop depth trees number pieces next) (hvalues : AllValuesIn locals trees) :
    Fitted whole start floor p pieces p := by
  obtain ⟨stack, frame⟩ := p
  dsimp only at haligned hfloor
  induction hitems with
  | nil => rfl
  | @cons tree _ number middle _ _ _ _ ih =>
    obtain ⟨htree, hrest⟩ := hvalues
    have hready : Ready ⟨loop, depth + 1, tree, number⟩ whole start ⟨stack - 8, frame⟩ := .of_value htree
    simp (disch := omega) [fit_runtime_iff, hready, hfloor, ih hrest]
    omega

theorem Arguments.fitted (harguments : Arguments loop depth trees number pieces next)
    (hvalues : AllValuesIn locals trees) :
    Fitted whole start floor p pieces { p with stack := p.stack - 8 * trees.length } := by
  obtain ⟨stack, frame⟩ := p
  dsimp only at haligned hfloor
  induction harguments with
  | nil => simp
  | @cons tree rest number middle _ _ _ _ ih =>
    obtain ⟨htree, hrest⟩ := hvalues
    have hready : Ready ⟨loop, depth + rest.length, tree, middle⟩ whole start ⟨stack - 8 * rest.length, frame⟩ :=
      .of_value htree
    refine fitted_append.2 ⟨_, ih hrest, ?_⟩
    simp [hready]
    omega

theorem OrNull.fitted (hvalue : OrNull loop depth tree number pieces next)
    (hvalues : ∀ given ∈ tree, given.ValueIn locals) : Fitted whole start floor p pieces p := by
  cases hvalue with
  | none => exact ⟨p, fit_runtime haligned hfloor, rfl⟩
  | some => exact ⟨haligned, hfloor, .of_value (hvalues _ rfl), rfl⟩

theorem OrNothing.fitted (hvalue : OrNothing loop depth tree number pieces next)
    (hready : ∀ given ∈ tree, Ready ⟨loop, depth, given, number⟩ whole start p) : Fitted whole start floor p pieces p := by
  cases hvalue with
  | none => rfl
  | some => exact ⟨haligned, hfloor, hready _ rfl, rfl⟩

theorem fit_method {key : Nat} : Fit whole start floor p (Code.method depth key name) p :=
  Fit.append ⟨trivial, p, rfl, trivial, p, rfl, trivial, p, rfl, rfl⟩ (fit_runtime haligned hfloor)

theorem fit_methods {methods : List Tree} {made : Code} {rest : Code}
    (hinstalled : Emit.Installed depth methods number made next) (hat : whole.At start (made ++ rest) p) :
    Fit whole start floor p made p := by
  induction hinstalled with
  | nil => rfl
  | @method _ name sourceName _ _ _ number _ _ _ ih =>
    rw [append_assoc] at hat
    have htext := hat
    rw [append_assoc] at htext
    have hfit : Fit whole start floor p (text number (number + 1) sourceName ++ Code.method depth (number + 1) name) p :=
      (fit_text htext.textEnd).append (fit_method haligned hfloor)
    exact hfit.append (ih (hat.behind hfit.scan))
  | other _ ih => exact ih hat

end

theorem Shape.fitted {rest : Code} (hshape : site.Shape outline allocation pieces next)
    (hparts : Each (fun _ made _ => ∀ p, made.scan p = some p) pieces) (hpooled : allocation.Pooled)
    (hat : whole.At start (all pieces ++ rest) p) (haligned : (p.stack + 8 * site.depth) % 16 = 0) (hfloor : p.stack ≤ floor)
    (hready : site.Ready whole start p) : Fitted whole start floor p pieces p := by
  obtain ⟨stack, frame⟩ := p
  cases hshape with dsimp only at haligned hfloor
  | array hitems =>
    obtain ⟨locals, hvalues⟩ : ∃ locals, AllValuesIn locals _ := hready.elim id And.left
    exact ⟨_, fit_runtime haligned hfloor, hitems.fitted haligned hfloor hvalues⟩
  | int | float | bool | null =>
    simp (disch := omega) [fit_runtime_iff]
  | str =>
    simp only [all_lines, append_assoc] at hat
    simp (disch := omega) [fit_runtime_iff, (fit_text hat.textEnd).iff_eq]
  | varLocal | varGlobal | varFunction =>
    simp
  | assignLocal hlocation =>
    obtain ⟨locals, -, hvalue⟩ : ∃ locals, Symbol.In locals _ ∧ ValueIn locals _ := hready.elim id And.left
    simp [-shift, hpooled.shift_store hlocation, haligned, hfloor, Ready.of_value hvalue]
  | assignGlobal =>
    obtain ⟨locals, -, hvalue⟩ : ∃ locals, Symbol.In locals _ ∧ ValueIn locals _ := hready.elim id And.left
    simp [haligned, hfloor, Ready.of_value hvalue]
  | binary hop =>
    obtain ⟨locals, hleft, hright⟩ : ∃ locals, ValueIn locals _ ∧ ValueIn locals _ := hready.elim id And.left
    simp (disch := omega) [fit_runtime_iff, Ready.of_value hleft, Ready.of_value hright, hfloor, haligned]
    omega
  | shortCircuit hop =>
    obtain ⟨locals, hleft, hright⟩ : ∃ locals, ValueIn locals _ ∧ ValueIn locals _ := hready.elim id And.left
    simp only [each_part, each_lines] at hparts
    simp only [all_lines, all_part, append_assoc] at hat
    have hend := ((((hat.behind (hparts.1 _)).behind rfl).behind scan_truth).behind rfl).behind (hparts.2.1 _)
    rw [Int.sub_add_cancel] at hend
    have hjump : ∃ target, whole.At start (.label (.shortEnd _) :: target) ⟨stack, frame⟩ := ⟨_, hend⟩
    simp (disch := omega) [fit_truth_iff, Ready.of_value hleft, Ready.of_value hright, hfloor, hjump]
    omega
  | @unary _ _ _ _ operand =>
    obtain ⟨locals, hvalue⟩ : ∃ locals, operand.ValueIn locals := hready.elim id And.left
    simp (disch := omega) [fit_runtime_iff, Ready.of_value hvalue, hfloor, haligned]
  | ternary =>
    obtain ⟨locals, hcondition, hpositive, hnegative⟩ :
      ∃ locals, ValueIn locals _ ∧ ValueIn locals _ ∧ ValueIn locals _ := hready.elim id And.left
    simp only [each_part, each_lines] at hparts
    simp only [all_lines, all_part, append_assoc] at hat
    have hother := ((((hat.behind (hparts.1 _)).behind scan_truth).behind rfl).behind (hparts.2.1 _)).behind rfl
    have hend := (hother.behind rfl).behind (hparts.2.2.1 _)
    have hjump : ∃ target, whole.At start (.label (.ternary _) :: target) ⟨stack, frame⟩ := ⟨_, hother⟩
    have hjump' : ∃ target, whole.At start (.label (.ternaryEnd _) :: target) ⟨stack, frame⟩ := ⟨_, hend⟩
    simp (disch := omega) [fit_truth_iff, Ready.of_value hcondition, Ready.of_value hpositive, Ready.of_value hnegative, hfloor, hjump, hjump']
    omega
  | @callMethod _ depth _ _ object _ arguments _ _ _ _ _ harguments =>
    obtain ⟨locals, hobject, hvalues⟩ : ∃ locals, object.ValueIn locals ∧ AllValuesIn locals arguments :=
      hready.elim id And.left
    have hend : Fit whole start floor ⟨stack - 8 * padding depth (arguments.length + 1) - 8 * arguments.length - 8, frame⟩
        (callEnd depth (arguments.length + 1) .callAddress) ⟨stack, frame⟩ := by
      have hend := @fit_callEnd ⟨stack, frame⟩ depth (arguments.length + 1) whole start floor .callAddress (fun _ => rfl)
        (fun _ halign => halign) haligned hfloor
      have hpushed : stack - 8 * padding depth (arguments.length + 1) - 8 * ↑(arguments.length + 1) =
          stack - 8 * padding depth (arguments.length + 1) - 8 * arguments.length - 8 := by omega
      rw [← hpushed]
      exact hend
    simp only [each_lines, each_append] at hparts
    simp only [all_lines, all_append, append_assoc] at hat
    have htext := ((hat.behind scan_reserved).behind ((harguments.levels rfl).scan hparts.1)).textEnd
    refine ⟨_, fit_reserved, fitted_append.2 ⟨_, harguments.fitted ?_ ?_ hvalues, _, fit_text htext, ?_⟩⟩
    · dsimp only
      omega
    · dsimp only
      omega
    · simp (disch := omega) [fit_runtime_iff, Ready.of_value hobject, hend]
      omega
  | @callDirect _ depth _ callee arguments _ _ _ name hcallee hdirect harguments =>
    obtain ⟨locals, -, hvalues⟩ : ∃ locals, callee.ValueIn locals ∧ AllValuesIn locals arguments :=
      hready.elim id And.left
    have hend := @fit_callEnd ⟨stack, frame⟩ depth arguments.length whole start floor (.call name) (fun _ => rfl)
      (fun _ halign => halign) haligned hfloor
    refine ⟨_, fit_reserved, fitted_append.2 ⟨_, harguments.fitted ?_ ?_ hvalues, _, hend, rfl⟩⟩
    · dsimp only
      omega
    · dsimp only
      omega
  | @callValue _ depth _ callee arguments _ _ _ _ _ hcallee hdirect harguments =>
    obtain ⟨locals, hvalue, hvalues⟩ : ∃ locals, callee.ValueIn locals ∧ AllValuesIn locals arguments :=
      hready.elim id And.left
    have hend := @fit_callEnd ⟨stack, frame⟩ depth arguments.length whole start floor .callAddress (fun _ => rfl)
      (fun _ halign => halign) haligned hfloor
    refine ⟨_, fit_reserved, fitted_append.2 ⟨_, harguments.fitted ?_ ?_ hvalues, ?_⟩⟩
    · dsimp only
      omega
    · dsimp only
      omega
    · simp [Ready.of_value hvalue, hend]
      omega
  | @get _ _ _ object =>
    obtain ⟨locals, hvalue⟩ : ∃ locals, object.ValueIn locals := hready.elim id And.left
    simp only [all_lines, append_assoc] at hat
    simp (disch := omega) [fit_runtime_iff, (fit_text hat.textEnd).iff_eq, Ready.of_value hvalue, hfloor]
    omega
  | set =>
    obtain ⟨locals, hobject, hvalue⟩ : ∃ locals, ValueIn locals _ ∧ ValueIn locals _ := hready.elim id And.left
    simp only [all_lines, append_assoc] at hat
    simp (disch := omega) [fit_runtime_iff, (fit_text hat.textEnd).iff_eq, Ready.of_value hobject, Ready.of_value hvalue, hfloor]
    omega
  | indexGet =>
    obtain ⟨locals, hobject, hindex⟩ : ∃ locals, ValueIn locals _ ∧ ValueIn locals _ := hready.elim id And.left
    simp (disch := omega) [fit_runtime_iff, Ready.of_value hobject, Ready.of_value hindex, hfloor, haligned]
    omega
  | indexSet =>
    obtain ⟨locals, hobject, hindex, hvalue⟩ :
      ∃ locals, ValueIn locals _ ∧ ValueIn locals _ ∧ ValueIn locals _ := hready.elim id And.left
    simp (disch := omega) [fit_runtime_iff, Ready.of_value hobject, Ready.of_value hindex, Ready.of_value hvalue, hfloor, haligned]
    omega
  | new hclass hmethods =>
    simp only [all_lines, append_assoc] at hat
    have hinstalled := @fit_methods _ _ _ _ _ _ floor (by dsimp only; omega) (by dsimp only; omega) _ _ _
      (Emit.installed_of_emits hmethods) ((hat.behind scan_runtime).behind rfl)
    simp (disch := omega) [fit_runtime_iff, hinstalled.iff_eq, hfloor]
  | varDecl hinitial hlocation =>
    obtain ⟨⟨locals, hvalue⟩, -⟩ := hready.resolve_left (·.elim fun _ => id)
    refine fitted_append.2 ⟨_, hinitial.fitted haligned hfloor hvalue, ?_⟩
    simp [-shift, hpooled.shift_store hlocation]
  | block hstatements =>
    obtain ⟨⟨locals, hbody⟩, hdepth, hexits⟩ := hready.resolve_left (·.elim fun _ => id)
    exact hstatements.fitted haligned hfloor hbody hdepth hexits
  | ret hvalue =>
    obtain ⟨⟨locals, hvalues⟩, -, hexits⟩ := hready.resolve_left (·.elim fun _ => id)
    exact fitted_append.2 ⟨_, hvalue.fitted haligned hfloor hvalues, _, ⟨hexits.ret, _, rfl, rfl⟩, rfl⟩
  | ifElse hnegative =>
    obtain ⟨⟨locals, hcondition, hpositive, helse⟩, hdepth, hexits⟩ := hready.resolve_left (·.elim fun _ => id)
    simp only [each_part, each_lines, each_append] at hparts
    simp only [all_lines, all_part, all_append, append_assoc] at hat
    have hother := ((((hat.behind (hparts.1 _)).behind scan_truth).behind rfl).behind (hparts.2.1 _)).behind rfl
    have hend := (hother.behind rfl).behind ((hnegative.sequence.levels rfl).scan hparts.2.2.1)
    have hnegative := hnegative.fitted haligned hfloor fun given hgiven => .inr ⟨⟨locals, helse.statementIn given hgiven⟩, hdepth, hexits⟩
    exact ⟨haligned, hfloor, .of_value hcondition, _, (fit_truth haligned hfloor).append ⟨⟨_, hother⟩, _, rfl, rfl⟩,
      haligned, hfloor, .inr ⟨⟨_, hpositive⟩, hdepth, hexits⟩, _, ⟨⟨_, hend⟩, _, rfl, trivial, _, rfl, rfl⟩,
      fitted_append.2 ⟨_, hnegative, _, ⟨trivial, _, rfl, rfl⟩, rfl⟩⟩
  | @whileLoop _ _ _ _ _ _ number _ _ _ _ _ _ hstep =>
    obtain ⟨⟨locals, hcondition, hbody, hsteps⟩, hdepth, hexits⟩ := hready.resolve_left (·.elim fun _ => id)
    simp only [each_part, each_lines, each_append] at hparts
    simp only [all_lines, all_part, all_append, append_assoc] at hat
    have hpoll := hat.behind rfl
    have hnext := ((((hpoll.behind scan_poll).behind (hparts.1 _)).behind scan_truth).behind rfl).behind (hparts.2.1 _)
    have hend := ((hnext.behind rfl).behind ((hstep.sequence.levels rfl).scan hparts.2.2.1)).behind rfl
    have hexits' : whole.Exits start ⟨stack, frame⟩ (some ⟨number + 1, number + 2⟩) := by
      refine ⟨hexits.ret, ?_, ?_⟩
      · rintro _ ⟨⟩
        exact ⟨_, hend⟩
      · rintro _ ⟨⟩
        exact ⟨_, hnext⟩
    have hstep : Fitted whole start floor ⟨stack, frame⟩ _ ⟨stack, frame⟩ :=
      hstep.fitted haligned hfloor fun given hgiven => .of_value (hsteps given hgiven)
    refine ⟨_, .append ⟨trivial, _, rfl, rfl⟩ (fit_poll hpoll.safe ?_), haligned, hfloor, .of_value hcondition, _,
      (fit_truth haligned hfloor).append ⟨⟨_, hend⟩, _, rfl, rfl⟩, haligned, hfloor, .inr ⟨⟨_, hbody⟩, hdepth, hexits'⟩, _,
      ⟨trivial, _, rfl, rfl⟩, fitted_append.2 ⟨_, hstep, _, ⟨⟨_, hat⟩, _, rfl, trivial, _, rfl, rfl⟩, rfl⟩⟩
    dsimp only at hdepth ⊢
    omega
  | breakLoop hloop =>
    obtain ⟨-, -, hexits⟩ := hready.resolve_left (·.elim fun _ => id)
    exact ⟨_, ⟨hexits.finish _ hloop, _, rfl, rfl⟩, rfl⟩
  | continueLoop hloop =>
    obtain ⟨-, -, hexits⟩ := hready.resolve_left (·.elim fun _ => id)
    exact ⟨_, ⟨hexits.next _ hloop, _, rfl, rfl⟩, rfl⟩
  | funcDecl => rfl
  | classDecl => rfl

/-- The code of an expression fits at every depth, and the code of a statement where nothing waits on the stack. -/
theorem Made.fitting {made : Code} (hmade : site.Made outline allocation made next)
    (hpooled : allocation.Pooled) : site.Fitting made next := by
  induction hmade with
  | intro hshape hparts ih =>
    intro whole start p rest floor hat haligned hfloor hready
    have hscans : Each (fun _ made _ => ∀ p, made.scan p = some p) _ :=
      fun part made next hpart => (hparts part made next hpart).scan hpooled
    exact (hshape.fitted hscans hpooled hat haligned hfloor hready).fit ih hat

end Site

end NanScript
