import NanScript.Proofs.Emission.Declared
import NanScript.Proofs.Grammar.Jumps
import NanScript.Proofs.Outline

/-!
# When there is code

A text without reports has code unless it gives a function a name that is taken, makes an object of no class, or assigns to no
variable. There are no other reasons: each local has a place, even in what is kept of a text with reports, and each jump has a
loop.
-/

namespace NanScript

open Emit Outline NanScript.Tree List

/-- The reasons why there is no code for a program. -/
inductive Offends (program : List Tree) : CodegenError → Prop
  | reservedName {name : String} (hname : name ∈ functionNames program) (hreserved : Reserved name) :
      Offends program (.reservedName name)
  | duplicateFunction {name : String} (hduplicate : Duplicate name (functionNames program)) :
      Offends program (.duplicateFunction name)
  | unknownClass {tree : Tree} {note : Note} {name : String} (htree : tree ∈ program) (hnode : .new note name ∈ tree.nodes)
      (hclass : name ∉ classNames program) : Offends program (.unknownClass name)
  | undefinedVariable {tree value : Tree} {note : Note} {name : String} (htree : tree ∈ program)
      (hnode : .assign note name .unresolved value ∈ tree.nodes) (hglobal : name ∉ globalDeclarations program) :
      Offends program (.undefinedVariable name)

variable {program : List Tree} {problem : CodegenError} {name : String}

theorem Clash.offends (hclash : Clash (functionNames program) problem) : Offends program problem := by
  cases hclash with
  | reserved hname hreserved => exact .reservedName hname hreserved
  | duplicate hduplicate => exact .duplicateFunction hduplicate

/-! ### Where the emitter fails -/

namespace Emit

variable {outline : Outline} {first : Nat} {problem : CodegenError} {list : List Tree}

theorem not_fails_parameters {around : Surroundings} {position : Nat}
    (hparameters : ∀ parameter ∈ list, parameter.IsParameter)
    (hplaced : ∀ id ∈ parameterLocals list, around.allocation.location? id ≠ none) :
    ¬ Fails (parameters around position list) first problem := by
  induction list generalizing position first with
  | nil => exact not_fails_pure
  | cons parameter rest ih =>
    obtain ⟨hparameter, hrest⟩ := forall_mem_cons.1 hparameters
    cases parameter with
    | var _ _ symbol =>
      obtain ⟨id, rfl⟩ := hparameter
      obtain ⟨hid, hplaced⟩ := forall_mem_cons.1 hplaced
      intro hfails
      simp only [parameters, fails_bind, not_fails_pure, and_false, exists_false, or_false] at hfails
      rcases hfails with hlocation | ⟨_, _, -, hfails⟩
      · rcases fails_location.1 hlocation with ⟨_, ⟨⟩, hnone, -⟩ | ⟨⟨⟩, -⟩
        exact hid hnone
      · exact ih hrest hplaced hfails
    | _ => exact hparameter.elim

theorem blamed_function {globals : List String} {tree : Tree} (hfunction : tree.IsFunction globals)
    (hfails : Fails (function outline tree) first problem) :
    ∃ note name sourceName list body, tree = .funcDecl note name sourceName list body ∧
      Blamed { outline, allocation := linearScan (liveIntervals list body) } body problem := by
  cases tree with
  | funcDecl note name sourceName list body =>
    refine ⟨note, name, sourceName, list, body, rfl, ?_⟩
    simp only [function, allocated, fails_bind, not_fails_label, not_fails_pure, and_false, exists_false, or_false,
      false_or] at hfails
    obtain ⟨_, _, -, hfails | ⟨_, _, -, hfails⟩⟩ := hfails
    · exact absurd hfails (not_fails_parameters hfunction.1 fun _ => placed_of_parameter)
    · exact blamed_code body hfails
  | _ => exact hfunction.elim

theorem fails_functions (hfails : Fails (functions outline list) first problem) :
    ∃ tree ∈ list, ∃ number, Fails (function outline tree) number problem := by
  induction list generalizing first with
  | nil => exact absurd hfails not_fails_pure
  | cons tree rest ih =>
    simp only [functions, fails_bind, not_fails_pure, and_false, exists_false, or_false] at hfails
    rcases hfails with hfails | ⟨_, _, -, hfails⟩
    · exact ⟨tree, mem_cons_self, first, hfails⟩
    · obtain ⟨other, hother, hfails⟩ := ih hfails
      exact ⟨other, mem_cons_of_mem _ hother, hfails⟩

variable {program : List Tree}

theorem fails_declarations (hfails : Fails (declarations outline program) first problem) :
    ∃ tree ∈ functionDeclarations program, ∃ number, Fails (function outline tree) number problem := by
  induction program generalizing first with
  | nil => exact absurd hfails not_fails_pure
  | cons tree rest ih =>
    have hcons : functionDeclarations (tree :: rest) = functionDeclarations [tree] ++ functionDeclarations rest := by
      simp [functionDeclarations]
    rw [hcons]
    simp only [declarations, fails_bind, not_fails_pure, and_false, exists_false, or_false] at hfails
    rcases hfails with hfails | ⟨_, _, -, hfails⟩
    · cases tree with
      | funcDecl => exact ⟨_, mem_cons_self, first, hfails⟩
      | classDecl _ _ methods =>
        obtain ⟨tree, htree, hfails⟩ := fails_functions hfails
        exact ⟨tree, by simp [functionDeclarations, htree], hfails⟩
      | _ => exact absurd hfails not_fails_pure
    · obtain ⟨other, hother, hfails⟩ := ih hfails
      exact ⟨other, mem_append_right _ hother, hfails⟩

theorem blamed_initialization (hfails : Fails (initialization outline program) first problem) :
    ∃ note name symbol managed given, .varDecl note name symbol managed (some given) ∈ program ∧
      Blamed { outline, allocation := {} } given problem := by
  induction program generalizing first with
  | nil => exact absurd hfails not_fails_pure
  | cons tree rest ih =>
    have hlater (hfails : ∃ middle, Fails (initialization outline rest) middle problem) :
        ∃ note name symbol managed given, .varDecl note name symbol managed (some given) ∈ tree :: rest ∧
          Blamed { outline, allocation := {} } given problem := by
      obtain ⟨middle, hfails⟩ := hfails
      obtain ⟨note, name, symbol, managed, given, hmem, hblamed⟩ := ih hfails
      exact ⟨note, name, symbol, managed, given, mem_cons_of_mem _ hmem, hblamed⟩
    cases tree with
    | varDecl note name symbol managed initial =>
      simp only [initialization, fails_bind, not_fails_pure, and_false, exists_false, or_false] at hfails
      rcases hfails with hfails | ⟨_, middle, -, hfails⟩
      · cases initial with
        | none => exact absurd hfails not_fails_pure
        | some given => exact ⟨note, name, symbol, managed, given, mem_cons_self, blamed_code given hfails⟩
      · exact hlater ⟨middle, hfails⟩
    | _ => exact hlater ⟨first, hfails⟩

end Emit

/-- If there is no assembly, the names of the functions clash or the emitter fails. -/
theorem fails_of_assemble (hassemble : assemble program = .error problem) :
    Clash (functionNames program) problem ∨ ∃ outline, ofProgram program = .ok outline ∧
      ((initialization outline program).Fails 0 problem ∨
        ∃ number, (declarations outline program).Fails number problem) := by
  rw [assemble_eq] at hassemble
  cases houtline : ofProgram program with
  | error error =>
    rw [houtline] at hassemble
    obtain rfl := Except.error.inj hassemble
    exact .inl (clash_of_ofProgram houtline)
  | ok outline =>
    refine .inr ⟨outline, rfl, ?_⟩
    simp only [houtline, bind, Except.bind] at hassemble
    cases hemitted : emitted outline program 0 with
    | error error =>
      rw [hemitted] at hassemble
      obtain rfl := Except.error.inj hassemble
      have hfails : (emitted outline program).Fails 0 error := hemitted
      simp only [emitted, fails_bind, not_fails_pure, and_false, exists_false, or_false] at hfails
      rcases hfails with hfails | ⟨_, number, -, hfails⟩
      · exact .inl hfails
      · exact .inr ⟨number, hfails⟩
    | ok made =>
      rw [hemitted] at hassemble
      contradiction

theorem generate_eq_ok_iff {text : String} :
    generate program = .ok text ↔ ∃ assembly, assemble program = .ok assembly ∧ assembly.render = text := by
  cases hassemble : assemble program <;> simp [generate, hassemble, bind, Except.bind, pure, Except.pure]

theorem generate_eq_error_iff : generate program = .error problem ↔ assemble program = .error problem := by
  cases hassemble : assemble program <;> simp [generate, hassemble, bind, Except.bind, pure, Except.pure]

/-! ### The trees of a program -/

section

variable {program : List Tree} {globals : List String} {tree : Tree}

theorem isFunction_of_mem (hprogram : ∀ tree ∈ program, tree.IsDeclaration globals)
    (htree : tree ∈ functionDeclarations program) (hname : tree.functionName? ≠ none) : tree.IsFunction globals := by
  obtain ⟨declaration, hdeclaration, hmem⟩ := mem_flatMap.1 htree
  have hkind := hprogram declaration hdeclaration
  cases declaration with
  | classDecl _ _ methods => exact hkind tree hmem
  | varDecl =>
    obtain rfl := mem_singleton.1 hmem
    exact absurd rfl hname
  | _ =>
    obtain rfl := mem_singleton.1 hmem
    exact hkind

theorem exists_of_mem_functionDeclarations {node : Tree} (htree : tree ∈ functionDeclarations program)
    (hnode : node ∈ tree.nodes) : ∃ declaration ∈ program, node ∈ declaration.nodes := by
  obtain ⟨declaration, hdeclaration, hmem⟩ := mem_flatMap.1 htree
  refine ⟨declaration, hdeclaration, ?_⟩
  cases declaration with
  | classDecl => exact mem_nodes_of_child hmem hnode
  | _ =>
    obtain rfl := mem_singleton.1 hmem
    exact hnode

/-- A node that is neither in a body nor in an initial value. -/
def Tree.IsOuter : Tree → Prop
  | varDecl .. | funcDecl .. | classDecl .. => True
  | tree => tree.IsParameter

theorem each_of_bodies {property : Tree → Prop} (htree : tree.IsDeclaration globals)
    (houter : ∀ node : Tree, node.IsOuter → property node)
    (hinitials : ∀ note name symbol managed given, tree = .varDecl note name symbol managed (some given) → given.Each property)
    (hbodies : ∀ note name sourceName list body, .funcDecl note name sourceName list body ∈ functionDeclarations [tree] →
      body.Each property) : tree.Each property := by
  have hfunction (function : Tree) (hfunction : function.IsFunction globals) (hmem : function ∈ functionDeclarations [tree]) :
      function.Each property := by
    cases function with
    | funcDecl note name sourceName list body =>
      refine each_iff.2 ⟨houter _ trivial, forall_mem_cons.2 ⟨hbodies _ _ _ _ _ hmem, fun parameter hparameter => ?_⟩⟩
      have hvar := hfunction.1 parameter hparameter
      cases parameter with
      | var => exact each_iff.2 ⟨houter _ hvar, by simp [children]⟩
      | _ => exact hvar.elim
    | _ => exact hfunction.elim
  cases tree with
  | varDecl _ _ _ _ initial =>
    refine each_iff.2 ⟨houter _ trivial, fun given hgiven => ?_⟩
    obtain rfl := Option.mem_toList.1 hgiven
    exact hinitials _ _ _ _ _ rfl
  | classDecl _ _ methods =>
    refine each_iff.2 ⟨houter _ trivial, fun method hmethod => hfunction method (htree method hmethod) ?_⟩
    simpa [functionDeclarations, children] using hmethod
  | _ => exact hfunction _ htree mem_cons_self

namespace Assembly.Planned

variable {assembly : Assembly} {outline : Outline} {plans : List Plan} (hplanned : assembly.Planned program outline plans)

include hplanned

theorem made_subset {plan : Plan} (hplan : plan ∈ plans) {site : Site} {made : Code} {next : Nat}
    (hpart : .part site made next ∈ plan.parts) : made ⊆ assembly.code := by
  intro line hline
  rw [hplanned.code, mem_flatten]
  exact ⟨plan.code, mem_map_of_mem hplan, mem_append_right _ (mem_append_left _ (Piece.made_subset hpart hline))⟩

/-- What holds of all trees that the emitter is asked for, and of the callees that it needs no code for, holds of all nodes of a
program. -/
theorem each {property : Tree → Prop} (hprogram : ∀ tree ∈ program, tree.IsDeclaration globals)
    (houter : ∀ node : Tree, node.IsOuter → property node) (hget : ∀ note object name, property (.get note object name))
    (hshapes : ∀ allocation (site : Site) pieces next, site.Shape outline allocation pieces next →
      Piece.own pieces ⊆ assembly.code → property site.tree ∧ ∀ note callee arguments name, site.tree = .call note callee arguments →
        Emit.direct? ⟨outline, allocation, site.loop⟩ callee = some name → property callee) :
    ∀ tree ∈ program, tree.Each property := by
  have hasked (tree : Tree) (hask : Plan.Ask plans tree) (hplain : tree.Each IsPlain) : tree.Each property := by
    obtain ⟨plan, hplan, site, made, next, hpart, rfl⟩ := hask
    have hmade := (hplanned.routine plan hplan).made site made next hpart
    have hsubset := hplanned.made_subset hplan hpart
    clear hpart
    induction hmade with
    | @intro site pieces next hshape _ ih =>
      obtain ⟨hself, hdirect⟩ := hshapes _ site pieces next hshape (Subset.trans Piece.own_subset hsubset)
      exact hshape.each hplain (fun part made next hpart hplain =>
        ih part made next hpart hplain (Subset.trans (Piece.made_subset hpart) hsubset)) hself hget hdirect
  intro tree htree
  refine each_of_bodies (hprogram tree htree) houter ?_ ?_
  · rintro note name symbol managed given rfl
    exact hasked given (hplanned.initial _ _ _ _ _ htree) ((hprogram _ htree given rfl).imp fun _ htop => htop.isNested.isPlain)
  · intro note name sourceName list body hmem
    have hfunction : funcDecl note name sourceName list body ∈ functionDeclarations program := by
      rw [functionDeclarations, flatMap_singleton] at hmem
      exact mem_flatMap.2 ⟨tree, htree, hmem⟩
    exact hasked body (hplanned.body _ _ _ _ _ hfunction)
      ((isFunction_of_mem hprogram hfunction (Option.some_ne_none _)).2.imp fun _ => IsNested.isPlain)

end Assembly.Planned

end

/-! ### Reasons -/

section

variable {program : List Tree} {outline : Outline} {problem : CodegenError}

theorem Outline.Describes.isGlobal_iff (hdescribes : Describes {} program outline) :
    outline.isGlobal name = true ↔ name ∈ globalDeclarations program := by
  rw [isGlobal, contains_iff_mem, hdescribes.globals]
  simp

theorem Outline.Describes.methods?_iff (hdescribes : Describes {} program outline) :
    (outline.methods? name).isSome = true ↔ name ∈ classNames program := by
  rw [hdescribes.classes]
  simp [methods?]

theorem Tree.Fault.offends {allocation : Allocation} {node tree : Tree} (hfault : node.Fault outline allocation problem)
    (hdescribes : Describes {} program outline) (htree : tree ∈ program) (hnode : node ∈ tree.nodes)
    (hplaced : ∀ id ∈ node.local?, allocation.location? id ≠ none)
    (hdeclares : ∀ note name symbol managed initial, node = .varDecl note name symbol managed initial → symbol.local? ≠ none) :
    Offends program problem := by
  cases hfault with
  | unknownClass hclass =>
    refine .unknownClass htree hnode fun hmem => ?_
    have hsome := hdescribes.methods?_iff.2 hmem
    rw [hclass] at hsome
    contradiction
  | @undefinedVariable _ _ symbol _ hsymbol hglobal =>
    obtain ⟨hexplicit, hlisted⟩ := Bool.or_eq_false_iff.1 hglobal
    cases symbol with
    | unresolved =>
      refine .undefinedVariable htree hnode fun hmem => ?_
      have htrue := hdescribes.isGlobal_iff.2 hmem
      rw [hlisted] at htrue
      contradiction
    | _ => contradiction
  | unplacedUse hlocation | unplacedTarget hlocation | unplacedDeclaration hlocation => exact absurd hlocation (hplaced _ rfl)
  | outerDeclaration hsymbol => exact absurd hsymbol (hdeclares _ _ _ _ _ rfl)

/-- If there is no code for a parsed program, there is a reason for it, or a jump has no loop. -/
theorem offends_or_stray {globals : List String} (hprogram : ∀ tree ∈ program, tree.IsDeclaration globals)
    (hassemble : assemble program = .error problem) :
    Offends program problem ∨
      ∃ tree ∈ functionDeclarations program, ¬ tree.Contained ∧ ∃ keyword, problem = .strayJump keyword := by
  rcases fails_of_assemble hassemble with hclash | ⟨outline, houtline, hfails⟩
  · exact .inl hclash.offends
  have hdescribes := describes_ofProgram houtline
  rcases hfails with hfails | ⟨number, hfails⟩
  · obtain ⟨note, name, symbol, managed, given, hmem, hblamed⟩ := blamed_initialization hfails
    have hgiven := hprogram _ hmem given rfl
    rcases hblamed with ⟨node, hnode, hfault⟩ | ⟨-, keyword, hkeyword, rfl⟩
    · have htop := hgiven node hnode
      refine .inl (hfault.offends hdescribes hmem (mem_nodes_of_child (Option.mem_toList.2 rfl) hnode) ?_ ?_)
      · intro id hid
        cases node with
        | var | assign =>
          have hlocal : some id = none := hid.symm.trans htop.1
          contradiction
        | varDecl => exact htop.elim
        | _ => contradiction
      · rintro _ _ _ _ _ rfl
        exact htop.elim
    · refine .inr ⟨_, mem_flatMap.2 ⟨_, hmem, mem_singleton_self _⟩, fun hcontained => ?_, keyword, rfl⟩
      rw [show given.jumps = [] from hcontained] at hkeyword
      contradiction
  · obtain ⟨tree, htree, number, hfails⟩ := fails_declarations hfails
    have hname : tree.functionName? ≠ none := by
      cases tree with
      | funcDecl => exact Option.some_ne_none _
      | _ => exact absurd hfails not_fails_pure
    have hfunction := isFunction_of_mem hprogram htree hname
    obtain ⟨note, name, sourceName, list, body, rfl, hblamed⟩ := blamed_function hfunction hfails
    rcases hblamed with ⟨node, hnode, hfault⟩ | ⟨-, keyword, hkeyword, rfl⟩
    · obtain ⟨declaration, hdeclaration, hnode'⟩ := exists_of_mem_functionDeclarations htree
        (mem_nodes_of_child mem_cons_self hnode)
      refine .inl (hfault.offends hdescribes hdeclaration hnode' ?_ ?_)
      · exact fun id hid => placed_of_mentioned (hfunction.2.imp fun _ => IsNested.isPlain) hnode hid
      · rintro _ _ _ _ _ rfl
        obtain ⟨id, rfl⟩ := hfunction.2 _ hnode
        exact Option.some_ne_none id
    · refine .inr ⟨_, htree, fun hcontained => ?_, keyword, rfl⟩
      rw [show body.jumps = [] from hcontained] at hkeyword
      contradiction

/-- Where there is code, there is no reason for there to be none. -/
theorem not_offends_of_assemble {globals : List String} (hprogram : ∀ tree ∈ program, tree.IsDeclaration globals)
    {assembly : Assembly} (hassemble : assemble program = .ok assembly) : ¬ Offends program problem := by
  obtain ⟨outline, plans, hplanned⟩ := planned_of_assemble hassemble
  have hdescribes := describes_ofProgram hplanned.outlined
  have heach : ∀ tree ∈ program, tree.Each (Declared outline) := by
    refine hplanned.each hprogram (fun node houter => ?_) (fun _ _ _ => trivial) fun _ _ _ _ hshape _ => ⟨hshape.declared, ?_⟩
    · cases node with
      | new | assign => exact houter.elim
      | _ => trivial
    · intro _ callee _ name _ hdirect
      obtain ⟨_, rfl, -⟩ := Site.direct_eq_some hdirect
      trivial
  rintro (⟨hname, hreserved⟩ | hduplicate | ⟨htree, hnode, hclass⟩ | ⟨htree, hnode, hglobal⟩)
  · exact hdescribes.free _ hname hreserved
  · have hnodup := hdescribes.nodup nodup_nil
    rw [hdescribes.functions] at hnodup
    exact hduplicate.not_nodup hnodup
  · exact hclass (hdescribes.methods?_iff.1 (heach _ htree _ hnode))
  · exact hglobal (hdescribes.isGlobal_iff.1 (heach _ htree _ hnode rfl))

end

/-- A text without reports has code exactly if nothing in it offends, and if something does, the error names it. No local is
ever without a place, even in what is kept of a text with reports. -/
theorem generate_outcome (source : String) :
    (∀ id, generate (parse source).program ≠ .error (.unallocated id)) ∧
      ((parse source).errors = [] →
        ((∃ text, generate (parse source).program = .ok text) ↔ ∀ problem, ¬ Offends (parse source).program problem) ∧
          ∀ problem, generate (parse source).program = .error problem → Offends (parse source).program problem) := by
  have hprogram := isDeclaration_of_parse source
  refine ⟨fun id hgenerate => ?_, fun hsilent => ?_⟩
  · rcases offends_or_stray hprogram (generate_eq_error_iff.1 hgenerate) with hoffends | ⟨_, _, _, _, hstray⟩
    · cases hoffends
    · contradiction
  · have hreason : ∀ problem, generate (parse source).program = .error problem → Offends (parse source).program problem := by
      intro problem hgenerate
      rcases offends_or_stray hprogram (generate_eq_error_iff.1 hgenerate) with hoffends | ⟨tree, htree, hloose, -⟩
      · exact hoffends
      · exact absurd (contained_of_parse hsilent htree) hloose
    refine ⟨⟨?_, ?_⟩, hreason⟩
    · rintro ⟨text, hgenerate⟩ problem
      obtain ⟨assembly, hassemble, -⟩ := generate_eq_ok_iff.1 hgenerate
      exact not_offends_of_assemble hprogram hassemble
    · intro hclean
      cases hgenerate : generate (parse source).program with
      | ok text => exact ⟨text, rfl⟩
      | error problem => exact absurd (hreason problem hgenerate) (hclean problem)

set_option maxRecDepth 4000 in
/-- A variable may be declared below an assignment to it. A class that nobody declares is missed even behind a `return`. -/
theorem generate_outcome_below :
    let good := "class A \x7b func m() \x7b while (y) \x7b y = new A(); break; \x7d \x7d \x7d var y;"
    let bad := "func f() \x7b return 1; new B(); \x7d"
    ((parse good).errors = [] ∧ ∀ problem, ¬ Offends (parse good).program problem) ∧
      (parse bad).errors = [] ∧ generate (parse bad).program = .error (.unknownClass "B") ∧
        Offends (parse bad).program (.unknownClass "B") := by
  intro good bad
  have hgood : (parse good).errors = [] := by decide +kernel
  have hbad : (parse bad).errors = [] := by decide +kernel
  have hfails : generate (parse bad).program = .error (.unknownClass "B") := by decide +kernel
  have hsucceeds : (generate (parse good).program).isOk = true := by decide +kernel
  refine ⟨⟨hgood, ((generate_outcome good).2 hgood).1.1 ?_⟩, hbad, hfails, ((generate_outcome bad).2 hbad).2 _ hfails⟩
  cases hgenerate : generate (parse good).program with
  | ok text => exact ⟨text, rfl⟩
  | error =>
    rw [hgenerate] at hsucceeds
    contradiction

end NanScript
