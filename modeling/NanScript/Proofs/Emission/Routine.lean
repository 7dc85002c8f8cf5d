import Mathlib.Data.List.SplitBy
import NanScript.Proofs.Emission.Parts
import NanScript.Proofs.Emission.Path
import NanScript.Proofs.Outline

/-!
# The routines of a program

The code of a program is the code of its entry and of its functions, one after the other. Each is put together from lines of
its own and from the code of its parts: of the initial values of the top-level variables, or of the body. `Plan.IsRoutine`
says how.
-/

namespace NanScript

open Code Register Emit

/-! ### Functions -/

namespace Code

variable {key : Nat} {rest : Code}

@[simp] theorem uses_function {name : String} : uses key (.function name :: rest) = uses key rest := uses_cons rfl

@[simp] theorem uses_blank : uses key (.blank :: rest) = uses key rest := uses_cons rfl

end Code

namespace Emit

variable {around : Surroundings} {list : List Tree} {position first next : Nat} {made : Code}

section

variable (hemits : Emits (parameters around position list) first made next)

include hemits

theorem next_parameters : first = next := by
  induction list generalizing position made with
  | nil => exact (emits_pure.1 hemits).2
  | cons tree rest ih =>
    cases tree with
    | var _ _ symbol =>
      simp only [parameters, emits_bind, emits_pure] at hemits
      obtain ⟨location, _, hlocation, copies, _, hrest, rfl, rfl⟩ := hemits
      obtain ⟨_, -, -, rfl⟩ := local_of_emits_location hlocation
      exact ih hrest
    | _ => exact ih hemits

theorem every_parameters {property : Line → Prop}
    (hstore : ∀ (target : Location) (source : Register), property (.instruction (.move target.place source)))
    (hload : ∀ offset, property (.instruction (.move rax (.incoming offset)))) : made.Every property := by
  induction list generalizing position first made with
  | nil =>
    obtain ⟨rfl, rfl⟩ := emits_pure.1 hemits
    exact every_nil
  | cons tree rest ih =>
    cases tree with
    | var =>
      simp only [parameters, emits_bind, emits_pure] at hemits
      obtain ⟨location, _, -, copies, _, hrest, rfl, rfl⟩ := hemits
      refine every_append.2 ⟨?_, ih hrest⟩
      unfold parameter
      split <;> simp [hstore, hload]
    | _ => exact ih hemits

end

variable {outline : Outline} {allocation : Allocation} {name : String} {body : Tree} {whole : Code}

theorem emits_allocated (hemits : Emits (allocated outline allocation name list body) first whole next) :
    ∃ copies made, Emits (parameters { outline, allocation } 0 list) (first + 1) copies (first + 1) ∧
      Emits (code { outline, allocation } 0 body) (first + 1) made next ∧
      whole = Code.function name allocation first copies made := by
  simp only [allocated, emits_bind, emits_label, emits_pure] at hemits
  obtain ⟨_, _, ⟨rfl, rfl⟩, copies, _, hcopies, made, _, hmade, rfl, rfl⟩ := hemits
  obtain rfl := next_parameters hcopies
  exact ⟨copies, made, hcopies, hmade, rfl⟩

/-- Each label of a function stands in one place. -/
theorem unique_function (name : String) {copies : Code} {number last : Nat}
    (hcopies : Emits (parameters around position list) first copies last)
    (hmade : Site.Made outline allocation ⟨none, 0, body, number + 1⟩ made next) (key : Nat) :
    uses key (Code.function name allocation number copies made) ≤ 1 := by
  have honce := hmade.numbered.once key
  have hcopies : uses key copies = 0 := uses_eq_zero (every_parameters hcopies (fun _ _ => rfl) fun _ => rfl)
  simp only [Code.function, Code.poll, Code.uses_append, Code.uses_function, Code.uses_nil, Code.uses_instructions,
    uses_label, uses_blank, hcopies, Label.key]
  split at honce <;> grind

end Emit

namespace Code

/-- The code behind the body of a function. -/
def ending (allocation : Allocation) : Code :=
  .instruction (.call "dyn_new_null" 0) :: .label .ret ::
    (instructions ([.unwind (8 * allocation.saved.length)] ++ allocation.saved.reverse.map .pop ++ [.pop .rbp, .ret]) ++
      [.blank])

/-- The code of a function in the form in which it is run. -/
theorem function_eq (name : String) (allocation : Allocation) (safe : Nat) (parameters body : Code) :
    function name allocation safe parameters body =
      .function name :: .instruction (.push .rbp) :: .instruction (.move rbp rsp) ::
        (poll safe (arguments.map .push) (arguments.reverse.map .pop) ++
          (instructions (allocation.saved.map .push) ++
            (.instruction (.reserve allocation.frameSize) :: (parameters ++ (body ++ ending allocation))))) := by
  simp [function, ending, instructions]

/-- The code in front of the body of a function. -/
def opening (name : String) (allocation : Allocation) (safe : Nat) (copies : Code) : Code :=
  .function name :: .instruction (.push .rbp) :: .instruction (.move rbp rsp) ::
    (poll safe (arguments.map .push) (arguments.reverse.map .pop) ++
      (instructions (allocation.saved.map .push) ++ (.instruction (.reserve allocation.frameSize) :: copies)))

def preparation (globals : List String) : Code :=
  .entry :: (instructions [.push .rbp, .move rbp rsp, .move rdi rbp,
    .call "aria_runtime_init" 1] ++
      globals.flatMap fun name => instructions [.globalAddress .rdi name, .call "aria_register_global_root" 1])

def departure (hasMain : Bool) : Code :=
  instructions (if hasMain then [.call "aria_main" 0] else []) ++ instructions [.argumentZero, .call "exit" 1] ++ [.blank]

/-- The routines of a program. The labels of one are not seen from another. -/
def routines (code : Code) : List Code := code.splitBy fun _ line => !line.isHeader

end Code

namespace Site

inductive Initials : List Tree → Nat → List Piece → Nat → Prop
  | nil {number : Nat} : Initials [] number [] number
  | global {note name symbol managed initial rest number middle next pieces more}
      (hinitial : OrNull none 0 initial number pieces middle) (hrest : Initials rest middle more next) :
      Initials (.varDecl note name symbol managed initial :: rest) number
        (pieces ++ .lines (instructions [.move (.global name) rax]) :: more) next
  | other {tree rest number pieces next} (hother : ∀ note name symbol managed initial,
      tree ≠ .varDecl note name symbol managed initial) (hrest : Initials rest number pieces next) :
      Initials (tree :: rest) number pieces next

end Site

/-- The parts of a routine and the lines around them. -/
structure Plan where
  allocation : Allocation
  front : Code
  parts : List Piece
  back : Code

def Plan.code (plan : Plan) : Code := plan.front ++ (Piece.all plan.parts ++ plan.back)

/-- What the routines of a program are made of. -/
inductive Plan.IsRoutine (program : List Tree) (outline : Outline) : Plan → Prop
  | entry {parts next} (hinitials : Site.Initials program 0 parts next) (hparts : Piece.Each (Site.Made outline {}) parts) :
      IsRoutine program outline ⟨{}, preparation (globalDeclarations program), parts, departure outline.hasMain⟩
  | function {note name sourceName list body number copies made next}
      (hfunction : .funcDecl note name sourceName list body ∈ functionDeclarations program)
      (hcopies : (parameters { outline, allocation := linearScan (liveIntervals list body) } 0 list).Emits (number + 1)
        copies (number + 1))
      (hbody : Site.Made outline (linearScan (liveIntervals list body)) ⟨none, 0, body, number + 1⟩ made next) :
      IsRoutine program outline ⟨linearScan (liveIntervals list body),
        opening name (linearScan (liveIntervals list body)) number copies, [.part ⟨none, 0, body, number + 1⟩ made next],
        ending (linearScan (liveIntervals list body))⟩

/-- Some routine has a part for the tree. -/
def Plan.Ask (plans : List Plan) (tree : Tree) : Prop :=
  ∃ plan ∈ plans, ∃ site made next, .part site made next ∈ plan.parts ∧ site.tree = tree

theorem Plan.IsRoutine.made {program : List Tree} {outline : Outline} {plan : Plan} (hroutine : plan.IsRoutine program outline) :
    Piece.Each (Site.Made outline plan.allocation) plan.parts := by
  cases hroutine with
  | entry _ hparts => exact hparts
  | function _ _ hbody => simpa using hbody

/-! ### What the emitter makes -/

namespace Code

theorem function_eq_opening (name : String) (allocation : Allocation) (safe : Nat) (copies body : Code) :
    function name allocation safe copies body = opening name allocation safe copies ++ (body ++ ending allocation) := by
  rw [function_eq]
  simp [opening]

theorem entry_eq_preparation (globals : List String) (initialization : Code) (hasMain : Bool) :
    entry globals initialization hasMain = preparation globals ++ (initialization ++ departure hasMain) := by
  simp [entry, preparation, departure, instructions]

end Code

namespace Emit

open Site

variable {outline : Outline} {program : List Tree} {first next : Nat} {made : Code}

theorem initials_of_emits (hemits : Emits (initialization outline program) first made next) :
    Composed { outline, allocation := {} } (Initials program first · next) made := by
  induction program generalizing first made with
  | nil =>
    obtain ⟨rfl, rfl⟩ := emits_pure.1 hemits
    exact ⟨[], .nil, by simp, rfl⟩
  | cons tree rest ih =>
    cases tree with
    | varDecl _ name _ _ initial =>
      simp only [initialization, emits_bind, emits_pure] at hemits
      obtain ⟨_, _, hinitial, _, _, hrest, rfl, rfl⟩ := hemits
      obtain ⟨pieces, hpieces, hparts, rfl⟩ := orNull_of_emits hinitial
      obtain ⟨more, hmore, hparts', rfl⟩ := ih hrest
      exact ⟨_, .global hpieces hmore, by simpa using ⟨hparts, hparts'⟩, by simp⟩
    | _ =>
      obtain ⟨pieces, hpieces, hparts, rfl⟩ := ih hemits
      exact ⟨pieces, .other (fun _ _ _ _ _ => Tree.noConfusion) hpieces, hparts, rfl⟩

theorem emits_functions_append {front back : List Tree} {middle : Nat} {made' : Code}
    (hfront : Emits (functions outline front) first made middle) (hback : Emits (functions outline back) middle made' next) :
    Emits (functions outline (front ++ back)) first (made ++ made') next := by
  induction front generalizing first made with
  | nil =>
    obtain ⟨rfl, rfl⟩ := emits_pure.1 hfront
    exact hback
  | cons tree rest ih =>
    simp only [functions, emits_bind, emits_pure] at hfront
    obtain ⟨_, _, htree, _, _, hrest, rfl, rfl⟩ := hfront
    rw [List.append_assoc]
    exact emits_bind.2 ⟨_, _, htree, emits_bind.2 ⟨_, _, ih hrest, emits_pure.2 ⟨rfl, rfl⟩⟩⟩

theorem emits_declarations (hemits : Emits (declarations outline program) first made next) :
    Emits (functions outline (functionDeclarations program)) first made next := by
  induction program generalizing first made with
  | nil => exact hemits
  | cons tree rest ih =>
    simp only [declarations, emits_bind, emits_pure] at hemits
    obtain ⟨_, _, htree, _, _, hrest, rfl, rfl⟩ := hemits
    cases tree with
    | classDecl _ _ methods => exact emits_functions_append htree (ih hrest)
    | _ => exact emits_bind.2 ⟨_, _, htree, emits_bind.2 ⟨_, _, ih hrest, emits_pure.2 ⟨rfl, rfl⟩⟩⟩

theorem routines_of_emits {list : List Tree} (hemits : Emits (functions outline list) first made next)
    (hlist : ∀ tree ∈ list, tree ∈ functionDeclarations program) :
    ∃ routines : List Plan, (∀ plan ∈ routines, plan.IsRoutine program outline) ∧
      (∀ plan ∈ routines, Piece.Each (Given outline plan.allocation) plan.parts) ∧
      made = (routines.map Plan.code).flatten ∧
      routines.map (·.front.head?) = (list.filterMap Tree.functionName?).map (fun name => some (.function name)) ∧
      ∀ note name sourceName parameters body, .funcDecl note name sourceName parameters body ∈ list → Plan.Ask routines body := by
  induction list generalizing first made with
  | nil =>
    obtain ⟨rfl, rfl⟩ := emits_pure.1 hemits
    exact ⟨[], by simp, by simp, rfl, rfl, by simp⟩
  | cons tree rest ih =>
    simp only [functions, emits_bind, emits_pure] at hemits
    obtain ⟨_, _, htree, _, _, hrest, rfl, rfl⟩ := hemits
    obtain ⟨hfunction, hlist⟩ := List.forall_mem_cons.1 hlist
    obtain ⟨routines, hroutines, hgiven, rfl, hnames, hasked⟩ := ih hrest hlist
    cases tree with
    | funcDecl _ name _ list body =>
      obtain ⟨copies, made, hcopies, hmade, rfl⟩ := emits_allocated htree
      have hbody := given_of_emits hmade
      refine ⟨_ :: routines, List.forall_mem_cons.2 ⟨.function hfunction hcopies hbody.toMade, hroutines⟩,
        List.forall_mem_cons.2 ⟨by simpa using hbody, hgiven⟩, ?_, ?_, ?_⟩
      · simp [Code.function_eq_opening, Plan.code]
      · exact congrArg (some (Line.function name) :: ·) hnames
      · intro _ _ _ _ other hmem
        rcases List.mem_cons.1 hmem with hsame | hlater
        · cases hsame
          exact ⟨_, List.mem_cons_self, _, _, _, List.mem_cons_self, rfl⟩
        · obtain ⟨plan, hplan, hpart⟩ := hasked _ _ _ _ other hlater
          exact ⟨plan, List.mem_cons_of_mem _ hplan, hpart⟩
    | _ =>
      obtain ⟨rfl, rfl⟩ := emits_pure.1 htree
      exact ⟨routines, hroutines, hgiven, rfl, hnames, by simpa using hasked⟩

end Emit

theorem Allocation.frameSize_mod_sixteen (allocation : Allocation) :
    (8 * allocation.saved.length + allocation.frameSize) % 16 = 0 := by
  unfold frameSize
  by_cases hodd : allocation.saved.length % 2 = 1
  · rw [if_pos (beq_iff_eq.2 hodd)]
    omega
  · rw [if_neg fun h => hodd (beq_iff_eq.1 h)]
    omega

variable {program : List Tree} {assembly : Assembly}

/-- The code of a whole program. -/
def Emit.emitted (outline : Outline) (program : List Tree) : Emit Code := do
  let start ← initialization outline program
  return entry (globalDeclarations program) start outline.hasMain ++ (← declarations outline program)

theorem assemble_eq (program : List Tree) : assemble program = (do
    let outline ← Outline.ofProgram program
    let code ← Prod.fst <$> emitted outline program 0
    return { undefined := undefinedFunctions outline code, globals := outline.globals, code }) := rfl

theorem emits_of_assemble (hassemble : assemble program = .ok assembly) :
    ∃ outline next, Outline.ofProgram program = .ok outline ∧ (emitted outline program).Emits 0 assembly.code next ∧
      assembly.globals = outline.globals ∧ assembly.undefined = undefinedFunctions outline assembly.code := by
  rw [assemble_eq] at hassemble
  cases houtline : Outline.ofProgram program with
  | error problem =>
    rw [houtline] at hassemble
    contradiction
  | ok outline =>
    simp only [houtline, bind, Except.bind] at hassemble
    cases hemitted : emitted outline program 0 with
    | error problem =>
      rw [hemitted] at hassemble
      contradiction
    | ok made =>
      rw [hemitted] at hassemble
      obtain rfl := Except.ok.inj hassemble
      exact ⟨outline, made.2, rfl, hemitted, rfl, rfl⟩

theorem Site.Initials.exists_part {number next : Nat} {parts : List Piece} (hinitials : Initials program number parts next)
    {note : Note} {name : String} {symbol : Symbol} {managed : Bool} {given : Tree}
    (hmem : .varDecl note name symbol managed (some given) ∈ program) :
    ∃ site made next, .part site made next ∈ parts ∧ site.tree = given := by
  induction hinitials with
  | nil => contradiction
  | global hinitial _ ih =>
    rcases List.mem_cons.1 hmem with hsame | hlater
    · cases hsame
      cases hinitial with
      | some => exact ⟨_, _, _, List.mem_cons_self, rfl⟩
    · obtain ⟨site, made, next, hpart, hsite⟩ := ih hlater
      exact ⟨site, made, next, List.mem_append_right _ (List.mem_cons_of_mem _ hpart), hsite⟩
  | other hother _ ih => exact ih ((List.mem_cons.1 hmem).resolve_left fun hsame => hother _ _ _ _ _ hsame.symm)

/-- The routines that the code of a program consists of. They begin with the entry and the functions in order, and have a part
for each initial value of a top-level variable and for each body. -/
structure Assembly.Planned (program : List Tree) (assembly : Assembly) (outline : Outline) (plans : List Plan) : Prop where
  outlined : Outline.ofProgram program = .ok outline
  globals : assembly.globals = outline.globals
  undefined : assembly.undefined = undefinedFunctions outline assembly.code
  routine : ∀ plan ∈ plans, plan.IsRoutine program outline
  given : ∀ plan ∈ plans, Piece.Each (Site.Given outline plan.allocation) plan.parts
  code : assembly.code = (plans.map Plan.code).flatten
  heads : plans.map (·.front.head?) = some .entry :: (functionNames program).map fun name => some (.function name)
  initial : ∀ note name symbol managed given, .varDecl note name symbol managed (some given) ∈ program → Plan.Ask plans given
  body : ∀ note name sourceName list body, .funcDecl note name sourceName list body ∈ functionDeclarations program →
    Plan.Ask plans body

theorem planned_of_assemble (hassemble : assemble program = .ok assembly) :
    ∃ outline plans, assembly.Planned program outline plans := by
  obtain ⟨outline, next, houtline, hemits, hglobals, hundefined⟩ := emits_of_assemble hassemble
  simp only [emitted, emits_bind, emits_pure] at hemits
  obtain ⟨_, number, hstart, _, _, hdeclared, hcode, -⟩ := hemits
  obtain ⟨parts, hinitials, hparts, rfl⟩ := initials_of_emits hstart
  obtain ⟨plans, hplans, hgiven, rfl, hnames, hasked⟩ := routines_of_emits (emits_declarations hdeclared) fun _ htree => htree
  have hmade : Piece.Each (Site.Made outline {}) parts := fun site made next hpart => (hparts site made next hpart).toMade
  refine ⟨outline, _ :: plans, houtline, hglobals, hundefined, List.forall_mem_cons.2 ⟨.entry hinitials hmade, hplans⟩,
    List.forall_mem_cons.2 ⟨hparts, hgiven⟩, by simp [← hcode, entry_eq_preparation, Plan.code], congrArg (some Line.entry :: ·) hnames,
    fun _ _ _ _ _ hmem => ⟨_, List.mem_cons_self, hinitials.exists_part hmem⟩, fun _ _ _ _ _ hmem => ?_⟩
  obtain ⟨plan, hplan, hpart⟩ := hasked _ _ _ _ _ hmem
  exact ⟨plan, List.mem_cons_of_mem _ hplan, hpart⟩

/-- What is checked of the assembly of a program. -/
def checked (program : List Tree) (check : Assembly → Bool) : Bool := (assemble program).toOption.any check

theorem exists_of_checked {program : List Tree} {check : Assembly → Bool} (hchecked : checked program check = true) :
    ∃ assembly, assemble program = .ok assembly ∧ check assembly = true := by
  unfold checked at hchecked
  cases hassemble : assemble program with
  | error =>
    rw [hassemble] at hchecked
    contradiction
  | ok assembly =>
    rw [hassemble] at hchecked
    exact ⟨assembly, rfl, hchecked⟩

/-! ### The labels of a routine -/

namespace Code

variable {key : Nat}

theorem uses_preparation {globals : List String} : uses key (preparation globals) = 0 :=
  uses_eq_zero (by simp [preparation, Line.key?])

theorem uses_departure {hasMain : Bool} : uses key (departure hasMain) = 0 := by
  simp [departure]

end Code

variable {outline : Outline}

theorem Site.Initials.numbered {number next : Nat} {parts : List Piece} (hinitials : Initials program number parts next)
    (hparts : Piece.Each (Made outline {}) parts) : Numbered number next (Piece.all parts) := by
  induction hinitials with
  | nil => exact .nil _
  | global hinitial _ ih =>
    simp only [Piece.each_append, Piece.each_lines] at hparts
    have hnumbered := hinitial.numbered fun site made next hpart => (hparts.1 site made next hpart).numbered
    exact (hnumbered.append (ih hparts.2)).congr fun key => by simp
  | other _ _ ih => exact ih hparts

theorem Plan.IsRoutine.unique {plan : Plan} (hroutine : plan.IsRoutine program outline) (key : Nat) :
    plan.code.uses key ≤ 1 := by
  cases hroutine with
  | entry hinitials hparts =>
    have honce := (hinitials.numbered hparts).once key
    simp only [Plan.code, uses_append, uses_preparation, uses_departure]
    split at honce <;> omega
  | @function _ name _ _ _ _ _ _ _ _ hcopies hbody =>
    have hunique := unique_function name hcopies hbody key
    rw [function_eq_opening] at hunique
    simpa [Plan.code] using hunique

end NanScript
