import NanScript.Proofs.Emission.Outcome

/-!
# Symbols of a file

What a file defines, what it declares to be defined elsewhere, and what its code names. Symbols are compared as the linker sees
them, without the dollar sign of a function.
-/

namespace NanScript

open Piece Code
open List hiding all all_nil all_append

/-! ### Symbols -/

/-- The symbol that a spelling stands for. A dollar sign in front is not part of it. -/
def linkName (spelling : String) : String :=
  match spelling.toList with
  | '$' :: rest => String.ofList rest
  | _ => spelling

def Place.symbol? : Place → Option String
  | global name => some (linkName (globalSymbol name))
  | _ => none

namespace Line

/-- The symbols that a line calls, or of which it takes the address or the word. -/
def named : Line → List String
  | instruction (.call name _) | instruction (.functionAddress _ name) => [linkName (functionSymbol name)]
  | instruction (.globalAddress _ name) => [linkName (globalSymbol name)]
  | instruction (.move target source) => target.symbol?.toList ++ source.symbol?.toList
  | instruction .pollRequest => [linkName "gc_suspend_request"]
  | _ => []

/-- The symbol that stands in front of the code behind it. -/
def defined? : Line → Option String
  | entry => some (linkName "main")
  | function name => some (linkName (functionSymbol name))
  | _ => none

/-- The text that a line takes the address of. -/
def address? : Line → Option Nat
  | instruction (.textAddress _ number) => some number
  | _ => none

def text? : Line → Option Nat
  | text number _ => some number
  | _ => none

end Line

namespace Assembly

/-- The symbols of the data and of the code, once for each place. -/
def defined (assembly : Assembly) : List String :=
  assembly.globals.map (fun name => linkName (globalSymbol name)) ++ assembly.code.filterMap Line.defined?

/-- The symbols that are declared to be defined elsewhere. -/
def declared (assembly : Assembly) : List String := assembly.externs.map fun name => linkName (functionSymbol name)

end Assembly

theorem linkName_cons (rest : String) : linkName ("$" ++ rest) = rest := by
  unfold linkName
  rw [String.toList_append]
  exact String.ofList_toList

@[simp] theorem linkName_functionSymbol (name : String) : linkName (functionSymbol name) = name := by
  unfold functionSymbol
  split
  · next hexport =>
    have hbare : ∀ name ∈ runtimeExports, linkName name = name := by decide
    exact hbare name (contains_iff_mem.1 hexport)
  · exact linkName_cons name

theorem toList_globalSymbol (name : String) : (globalSymbol name).toList = "_aria_global_".toList ++ name.toList := by
  have hsymbol : globalSymbol name = "_aria_global_" ++ name := rfl
  rw [hsymbol, String.toList_append]

@[simp] theorem linkName_globalSymbol (name : String) : linkName (globalSymbol name) = globalSymbol name := by
  unfold linkName
  rw [toList_globalSymbol]
  rfl

theorem globalSymbol_injective : Function.Injective globalSymbol := by
  intro first second hsame
  have hlists := congrArg String.toList hsame
  rw [toList_globalSymbol, toList_globalSymbol] at hlists
  exact String.toList_inj.1 (append_cancel_left hlists)

/-- No top-level variable is spelled like the entry or an export of the runtime. -/
theorem not_reserved_globalSymbol (name : String) : ¬ Reserved (globalSymbol name) := by
  intro hreserved
  have hfirst : ∀ other ∈ "main" :: runtimeExports, other.toList.head? ≠ some '_' := by decide
  refine hfirst (globalSymbol name) (mem_cons.2 hreserved) ?_
  rw [toList_globalSymbol]
  rfl

/-! ### Lines that name what is known -/

namespace Place

variable {outline : Outline}

def Linked (outline : Outline) : Place → Prop
  | global name => outline.isGlobal name = true
  | _ => True

@[simp] theorem linked_register {register : Register} : (Place.register register).Linked outline := trivial

@[simp] theorem linked_top : Place.top.Linked outline := trivial

@[simp] theorem linked_incoming {offset : Nat} : (Place.incoming offset).Linked outline := trivial

@[simp] theorem linked_global {name : String} : (Place.global name).Linked outline ↔ outline.isGlobal name = true := Iff.rfl

@[simp] theorem linked_place {location : Location} : location.place.Linked outline := by
  cases location <;> trivial

end Place

namespace Code

def addresses (code : Code) : List Nat := code.filterMap Line.address?

def texts (code : Code) : List Nat := code.filterMap Line.text?

/-- Each text of which the address is taken stands in the code. -/
def Lettered (code : Code) : Prop := code.addresses ⊆ code.texts

end Code

/-- The names in a line are those of the runtime, of the program, or free, and its texts are given ones. No function begins
with it. -/
def Line.Linked (outline : Outline) (free : String → Prop) (known : List Nat) : Line → Prop
  | instruction (.call name _) | instruction (.functionAddress _ name) =>
    name ∈ runtimeExports ∨ name ∈ outline.functions ∨ free name
  | instruction (.globalAddress _ name) => outline.isGlobal name = true
  | instruction (.textAddress _ number) | text number _ => number ∈ known
  | instruction (.move target source) => target.Linked outline ∧ source.Linked outline
  | entry | function _ => False
  | _ => True

variable {outline : Outline} {free free' : String → Prop} {known known' : List Nat} {line : Line}

theorem Line.Linked.mono (hline : line.Linked outline free known) (himp : ∀ name, free name → free' name)
    (hsubset : known ⊆ known') : line.Linked outline free' known' := by
  cases line with
  | instruction instruction =>
    cases instruction with
    | call | functionAddress => exact Or.imp_right (Or.imp_right (himp _)) hline
    | textAddress => exact hsubset hline
    | _ => exact hline
  | text => exact hsubset hline
  | _ => exact hline

theorem Line.Linked.isHeader_eq (hline : line.Linked outline free known) : line.isHeader = false := by
  cases line with
  | entry | function => exact hline.elim
  | _ => rfl

attribute [local simp] Line.Linked Line.text?

namespace Code

variable {rest front back code : Code} {depth : Nat}

abbrev Linked (outline : Outline) (free : String → Prop) (known : List Nat) (code : Code) : Prop :=
  code.Every (Line.Linked outline free known)

theorem Linked.mono (hcode : Linked outline free known code) (himp : ∀ name, free name → free' name)
    (hsubset : known ⊆ known') : Linked outline free' known' code := fun line hline => (hcode line hline).mono himp hsubset

@[simp] theorem texts_nil : texts [] = [] := rfl

@[simp] theorem texts_cons : texts (line :: rest) = line.text?.toList ++ texts rest := by
  unfold texts
  cases htext : line.text? <;> simp [-Line.text?, htext]

@[simp] theorem texts_append : texts (front ++ back) = texts front ++ texts back := filterMap_append

theorem texts_subset (hsubset : front ⊆ back) : texts front ⊆ texts back := filterMap_subset _ hsubset

variable {list : List Instruction}

@[simp] theorem texts_instructions : texts (instructions list) = [] :=
  filterMap_eq_nil_iff.2 (every_instructions.2 fun _ _ => rfl)

@[simp] theorem texts_runtime {arguments : Nat} {name : String} : texts (runtime depth name arguments) = [] :=
  filterMap_eq_nil_iff.2 (every_runtime.2 ⟨rfl, fun _ => ⟨rfl, rfl⟩⟩)

@[simp] theorem linked_truth : Linked outline free known (truth depth) := by
  simp [truth, runtimeExports]

@[simp] theorem linked_text {skip data : Nat} {content : String} :
    Linked outline free known (text skip data content) ↔ data ∈ known := by
  simp [text]

@[simp] theorem texts_text {skip data : Nat} {content : String} : texts (text skip data content) = [data] := rfl

theorem linked_operator {op : BinaryOp} : operator op ∈ runtimeExports := by
  cases op <;> decide

theorem linked_unaryOperator {op : UnaryOp} : unaryOperator op ∈ runtimeExports := by
  cases op <;> decide

end Code

/-! ### The code of a tree -/

namespace Tree

/-- What is known to be a top-level variable is one. -/
def GlobalsIn (outline : Outline) : Tree → Prop
  | var _ name symbol | assign _ name symbol _ => symbol = .global → outline.isGlobal name = true
  | _ => True

/-- The tree uses a name that is no variable. -/
def Free (outline : Outline) (tree : Tree) (name : String) : Prop :=
  outline.isGlobal name = false ∧ ∃ note, .var note name .unresolved ∈ tree.nodes

end Tree

namespace Site

open NanScript.Tree

variable {loop : Option LoopLabels} {depth number next : Nat} {pieces : List Piece} {allocation : Allocation} {trees : List Tree}

theorem Items.linked (hitems : Items loop depth trees number pieces next) : Linked outline free known (own pieces) := by
  induction hitems with
  | nil => simp
  | cons _ ih => simpa [runtimeExports] using ih

theorem Arguments.linked (harguments : Arguments loop depth trees number pieces next) :
    Linked outline free known (own pieces) := by
  induction harguments with
  | nil => simp
  | cons _ ih => simpa using ih

theorem OrNull.linked {tree : Option Tree} (hvalue : OrNull loop depth tree number pieces next) :
    Linked outline free known (own pieces) := by
  cases hvalue <;> simp [runtimeExports]

theorem linked_methods {methods : List Tree} {first : Nat} {installed : Code}
    (hinstalled : Emit.Installed depth methods first installed next)
    (hmethods : ∀ name ∈ methods.filterMap functionName?, name ∈ outline.functions) :
    Linked outline free installed.texts installed := by
  induction hinstalled with
  | nil => simp
  | @method _ _ _ _ _ _ number _ _ _ ih =>
    obtain ⟨hname, hmethods⟩ := forall_mem_cons.1 hmethods
    have hrest := (ih hmethods).mono (fun _ => id) (subset_cons_self (number + 1) _)
    simpa [method, runtimeExports, hname] using hrest
  | other _ ih => exact ih fun name hname => hmethods name (((sublist_cons_self _ _).filterMap _).subset hname)

@[simp] theorem linked_callEnd {total : Nat} {jump : Nat → Instruction} : Linked outline free known (callEnd depth total jump) ↔
    (Line.instruction (jump total)).Linked outline free known := by
  simp [callEnd, -map_take]

variable {name : String}

theorem isGlobal_of_globalsIn {symbol : Symbol} (hknown : symbol = .global → outline.isGlobal name = true)
    (hglobal : (symbol.isGlobal || outline.isGlobal name) = true) : outline.isGlobal name = true := by
  cases symbol with
  | global => exact hknown rfl
  | _ => exact hglobal

variable {site : Site}

theorem Shape.linked (hshape : site.Shape outline allocation pieces next)
    (hmethods : ∀ entry ∈ outline.classes, ∀ name ∈ entry.2.filterMap functionName?, name ∈ outline.functions)
    (hglobals : site.tree.GlobalsIn outline) : Linked outline (site.tree.Free outline) (own pieces).texts (own pieces) := by
  cases hshape with
  | varGlobal _ hglobal | assignGlobal _ hglobal =>
    simpa using isGlobal_of_globalsIn hglobals hglobal
  | @varFunction _ _ note name symbol _ hsymbol hglobal =>
    obtain ⟨hexplicit, hlisted⟩ := Bool.or_eq_false_iff.1 hglobal
    cases symbol with
    | unresolved => simpa using .inr (.inr ⟨hlisted, note, mem_nodes_self _⟩)
    | _ => contradiction
  | @callDirect _ _ outer callee arguments _ _ _ name _ hdirect harguments =>
    obtain ⟨note, rfl, hlisted⟩ := direct_eq_some hdirect
    have hfree : Free outline (.call outer (.var note name .unresolved) arguments) name :=
      ⟨hlisted, note, mem_nodes_of_child mem_cons_self (mem_nodes_self _)⟩
    simpa [hfree] using harguments.linked
  | new hclass hemits =>
    obtain ⟨front, back, hclasses, -⟩ := lookup_eq_some_iff.1 hclass
    have hentry := hmethods (_, _) (hclasses ▸ mem_append_right _ mem_cons_self)
    simpa [runtimeExports] using linked_methods (Emit.installed_of_emits hemits) hentry
  | array hitems => simpa [runtimeExports] using hitems.linked
  | varDecl hvalue | ret hvalue => simpa using hvalue.linked
  | block hstatements => simp [hstatements.own_eq]
  | ifElse hoption | whileLoop hoption => simp [hoption.sequence.own_eq, poll, runtimeExports]
  | callMethod harguments | callValue _ _ harguments =>
    simpa [runtimeExports] using harguments.linked
  | binary | unary => simp [linked_operator, linked_unaryOperator]
  | _ => simp [runtimeExports]

variable {made : Code}

/-- The code of a tree names the runtime, the program, and what is free in the tree. -/
theorem Made.linked (hmade : site.Made outline allocation made next)
    (hmethods : ∀ entry ∈ outline.classes, ∀ name ∈ entry.2.filterMap functionName?, name ∈ outline.functions)
    (hglobals : site.tree.Each (GlobalsIn outline)) : Linked outline (site.tree.Free outline) made.texts made := by
  induction hmade with
  | intro hshape _ ih =>
    intro line hline
    rcases mem_all.1 hline with hline | ⟨part, made, next, hpart, hline⟩
    · exact (hshape.linked hmethods (hglobals _ (mem_nodes_self _)) line hline).mono (fun _ => id) (texts_subset own_subset)
    · have hwithin := (hshape.within part made next hpart).nodes_subset
      have hlinked := ih part made next hpart fun node hnode => hglobals node (hwithin hnode)
      exact (hlinked line hline).mono (fun name hfree => ⟨hfree.1, hfree.2.imp fun _ hnode => hwithin hnode⟩)
        (texts_subset (made_subset hpart))

/-- A name that is no variable is named by the lines of its own. -/
theorem Shape.refers (hshape : site.Shape outline allocation pieces next) {note : Note} {name : String}
    (htree : site.tree = .var note name .unresolved) (hfree : outline.isGlobal name = false) :
    ∃ line ∈ own pieces, line.reference? = some name := by
  cases hshape with
  | varFunction =>
    obtain ⟨-, rfl, -⟩ := Tree.var.inj htree
    exact ⟨.instruction (.functionAddress .rax _), by simp [instructions], rfl⟩
  | varGlobal _ hglobal =>
    obtain ⟨-, rfl, rfl⟩ := Tree.var.inj htree
    rw [hfree] at hglobal
    contradiction
  | varLocal =>
    obtain ⟨-, -, hsymbol⟩ := Tree.var.inj htree
    contradiction
  | _ => contradiction

theorem Shape.calls (hshape : site.Shape outline allocation pieces next) {note : Note} {callee : Tree} {arguments : List Tree}
    {name : String} (htree : site.tree = .call note callee arguments)
    (hdirect : Emit.direct? ⟨outline, allocation, site.loop⟩ callee = some name) :
    ∃ line ∈ own pieces, line.reference? = some name := by
  cases hshape with
  | @callDirect _ _ _ _ list _ _ _ called _ hdirect' =>
    obtain ⟨-, rfl, rfl⟩ := Tree.call.inj htree
    obtain rfl := Option.some.inj (hdirect'.symm.trans hdirect)
    exact ⟨.instruction (.call called list.length), by simp [callEnd, instructions], rfl⟩
  | callValue _ hdirect' =>
    obtain ⟨-, rfl, rfl⟩ := Tree.call.inj htree
    exact absurd (hdirect'.symm.trans hdirect) (by simp)
  | callMethod =>
    obtain ⟨-, rfl, -⟩ := Tree.call.inj htree
    contradiction
  | _ => contradiction

end Site

/-! ### Routines -/

section

open Outline

variable {program : List Tree} {plan : Plan} {name : String}

/-- Some tree of the program uses a name that is no variable. -/
def Loose (program : List Tree) (name : String) : Prop :=
  name ∉ globalDeclarations program ∧ ∃ tree ∈ program, ∃ note, .var note name .unresolved ∈ tree.nodes

theorem Tree.Free.loose {tree : Tree} (hdescribes : Describes {} program outline) (hfree : tree.Free outline name)
    (hwithin : ∀ node ∈ tree.nodes, ∃ declaration ∈ program, node ∈ declaration.nodes) : Loose program name := by
  obtain ⟨hlisted, note, hnode⟩ := hfree
  obtain ⟨declaration, hdeclaration, hnode⟩ := hwithin _ hnode
  refine ⟨fun hmem => ?_, declaration, hdeclaration, note, hnode⟩
  have htrue := hdescribes.isGlobal_iff.2 hmem
  rw [hlisted] at htrue
  contradiction

theorem Tree.IsNested.globalsIn {tree : Tree} (hdescribes : Describes {} program outline)
    (htree : tree.IsNested (globalDeclarations program)) : tree.GlobalsIn outline := by
  cases tree with
  | var | assign => exact fun hsymbol => hdescribes.isGlobal_iff.2 (htree hsymbol)
  | _ => trivial

/-- What is common to the entry and the functions: one header, and behind it lines that name what is known. -/
def Plan.Settled (program : List Tree) (outline : Outline) (plan : Plan) : Prop :=
  ∃ line rest, plan.code = line :: rest ∧ plan.front.head? = some line ∧ line.isHeader = true ∧
    Code.Linked outline (Loose program) plan.code.texts rest

theorem Plan.Settled.of_around {rest : Code} (hfront : plan.front = line :: rest) (hline : line.isHeader = true)
    (hrest : Code.Linked outline (Loose program) [] rest)
    (hparts : Code.Linked outline (Loose program) (all plan.parts).texts (all plan.parts))
    (hback : Code.Linked outline (Loose program) [] plan.back) : plan.Settled program outline := by
  have hsubset : all plan.parts ⊆ plan.code := fun _ hmem => mem_append_right _ (mem_append_left _ hmem)
  refine ⟨line, rest ++ (all plan.parts ++ plan.back), by rw [Plan.code, hfront, cons_append], by rw [hfront, head?_cons], hline, ?_⟩
  exact every_append.2 ⟨hrest.mono (fun _ => id) (nil_subset _),
    every_append.2 ⟨hparts.mono (fun _ => id) (texts_subset hsubset), hback.mono (fun _ => id) (nil_subset _)⟩⟩

namespace Site.Initials

variable {number next : Nat} {list : List Tree} {parts : List Piece} (hinitials : Initials list number parts next)

include hinitials

theorem linked (hglobals : ∀ name ∈ globalDeclarations list, outline.isGlobal name = true) :
    Code.Linked outline free known (own parts) := by
  induction hinitials with
  | nil => simp
  | global hinitial _ ih =>
    obtain ⟨hglobal, hglobals⟩ := forall_mem_cons.1 hglobals
    simpa [hglobal] using ⟨hinitial.linked, ih hglobals⟩
  | @other tree _ _ _ _ hother _ ih =>
    refine ih fun name hname => hglobals name ?_
    cases tree with
    | varDecl => exact absurd rfl (hother _ _ _ _ _)
    | _ => exact hname

theorem initial : Each (fun site _ _ =>
    ∃ note name symbol managed, .varDecl note name symbol managed (some site.tree) ∈ list) parts := by
  induction hinitials with
  | nil => simp
  | global hinitial _ ih =>
    simp only [each_append, each_lines]
    refine ⟨?_, ih.imp fun _ _ _ => .imp fun _ => .imp fun _ => .imp fun _ => .imp fun _ => mem_cons_of_mem _⟩
    cases hinitial with
    | none => simp
    | some => exact each_part.2 ⟨⟨_, _, _, _, mem_cons_self⟩, each_nil⟩
  | other _ _ ih => exact ih.imp fun _ _ _ => .imp fun _ => .imp fun _ => .imp fun _ => .imp fun _ => mem_cons_of_mem _

end Site.Initials

namespace Plan.IsRoutine

variable (hroutine : plan.IsRoutine program outline)

include hroutine

/-- The parts of a routine are nested code of the program. -/
theorem isNested {globals : List String} (hprogram : ∀ tree ∈ program, tree.IsDeclaration globals) :
    Each (fun site _ _ => site.tree.Each (Tree.IsNested globals) ∧
      ∀ node ∈ site.tree.nodes, ∃ declaration ∈ program, node ∈ declaration.nodes) plan.parts := by
  cases hroutine with
  | entry hinitials =>
    refine hinitials.initial.imp fun site _ _ ⟨_, _, _, _, hmem⟩ => ⟨?_, fun node hnode => ⟨_, hmem, ?_⟩⟩
    · exact (hprogram _ hmem site.tree rfl).imp fun _ => Tree.IsTop.isNested
    · exact Tree.mem_nodes_of_child (Option.mem_toList.2 rfl) hnode
  | function hfunction =>
    refine each_part.2 ⟨⟨(isFunction_of_mem hprogram hfunction (Option.some_ne_none _)).2, fun node hnode => ?_⟩, each_nil⟩
    exact exists_of_mem_functionDeclarations hfunction (Tree.mem_nodes_of_child mem_cons_self hnode)

theorem settled (hprogram : ∀ tree ∈ program, tree.IsDeclaration (globalDeclarations program))
    (houtline : ofProgram program = .ok outline) : plan.Settled program outline := by
  have hdescribes := describes_ofProgram houtline
  have hconsistent := consistent_ofProgram houtline
  have hparts (hown : Code.Linked outline (Loose program) [] (own plan.parts)) :
      Code.Linked outline (Loose program) (all plan.parts).texts (all plan.parts) := by
    intro line hline
    rcases mem_all.1 hline with hline | ⟨site, made, next, hpart, hline⟩
    · exact (hown line hline).mono (fun _ => id) (nil_subset _)
    · obtain ⟨hnested, hwithin⟩ := hroutine.isNested hprogram site made next hpart
      have hlinked := (hroutine.made site made next hpart).linked hconsistent.methods
        (hnested.imp fun _ => Tree.IsNested.globalsIn hdescribes)
      exact (hlinked line hline).mono (fun _ hfree => hfree.loose hdescribes hwithin) (texts_subset (made_subset hpart))
  cases hroutine with
  | entry hinitials =>
    have hglobals (name : String) (hname : name ∈ globalDeclarations program) : outline.isGlobal name = true :=
      hdescribes.isGlobal_iff.2 hname
    refine .of_around rfl rfl (by simpa [runtimeExports] using hglobals) (hparts (hinitials.linked hglobals)) ?_
    cases hmain : outline.hasMain with
    | false => simp [Code.departure, runtimeExports]
    | true => simp [Code.departure, runtimeExports, hconsistent.main hmain]
  | function _ hcopies =>
    have hcopied : Code.Linked outline (Loose program) [] _ :=
      Emit.every_parameters hcopies (fun _ _ => ⟨Place.linked_place, trivial⟩) fun _ => ⟨trivial, trivial⟩
    refine .of_around rfl rfl ?_ (hparts every_nil) ?_
    · simpa [Code.poll, runtimeExports, Register.arguments] using hcopied
    · simp [Code.ending, runtimeExports, or_imp, forall_and]

end Plan.IsRoutine

/-! ### The routines of a file -/

namespace Code

theorem isChain_of_headless {rest : Code} (hrest : rest.Every (·.isHeader = false)) :
    (line :: rest).IsChain fun _ line => (!line.isHeader) = true := by
  induction rest generalizing line with
  | nil => exact .singleton _
  | cons next rest ih =>
    obtain ⟨hnext, hrest⟩ := every_cons.1 hrest
    exact isChain_cons_cons.2 ⟨by rw [hnext]; rfl, ih hrest⟩

/-- Routines that each begin with their only header are the routines of what they make up. -/
theorem routines_flatten {plans : List Plan} (hplans : ∀ plan ∈ plans, plan.Settled program outline) :
    routines (plans.map Plan.code).flatten = plans.map Plan.code := by
  have hcodes : ∀ code ∈ plans.map Plan.code, ∃ line rest, code = line :: rest ∧ line.isHeader = true ∧
      Every (·.isHeader = false) rest := by
    intro code hcode
    obtain ⟨plan, hplan, rfl⟩ := mem_map.1 hcode
    obtain ⟨line, rest, hcode, -, hline, hlinked⟩ := hplans plan hplan
    exact ⟨line, rest, hcode, hline, fun line hline => (hlinked line hline).isHeader_eq⟩
  refine splitBy_flatten ?_ ?_ ?_
  · intro hnil
    obtain ⟨_, _, hcons, -⟩ := hcodes _ hnil
    contradiction
  · intro code hcode
    obtain ⟨line, rest, rfl, -, hrest⟩ := hcodes code hcode
    exact isChain_of_headless hrest
  · refine Pairwise.isChain (pairwise_of_forall_mem_list fun front hfront back hback => ?_)
    obtain ⟨line, rest, rfl, -, -⟩ := hcodes front hfront
    obtain ⟨line', rest', rfl, hline', -⟩ := hcodes back hback
    refine ⟨cons_ne_nil _ _, cons_ne_nil _ _, ?_⟩
    rw [head_cons, hline']
    rfl

end Code

/-- A program falls apart into its routines. -/
theorem routines_eq_of_assemble {assembly : Assembly} (hassemble : assemble program = .ok assembly)
    (hprogram : ∀ tree ∈ program, tree.IsDeclaration (globalDeclarations program)) :
    ∃ outline plans, assembly.Planned program outline plans ∧ (∀ plan ∈ plans, plan.Settled program outline) ∧
      assembly.code.routines = plans.map Plan.code := by
  obtain ⟨outline, plans, hplanned⟩ := planned_of_assemble hassemble
  have hsettled (plan : Plan) (hplan : plan ∈ plans) := (hplanned.routine plan hplan).settled hprogram hplanned.outlined
  exact ⟨outline, plans, hplanned, hsettled, by rw [hplanned.code, routines_flatten hsettled]⟩

theorem Plan.Settled.lettered (hsettled : plan.Settled program outline) : plan.code.Lettered := by
  obtain ⟨header, rest, hcode, -, hheader, hlinked⟩ := hsettled
  intro number hnumber
  obtain ⟨line, hline, haddress⟩ := mem_filterMap.1 hnumber
  rw [hcode] at hline
  unfold Line.address? at haddress
  split at haddress
  · obtain rfl := Option.some.inj haddress
    rcases mem_cons.1 hline with rfl | hline
    · contradiction
    · exact hlinked _ hline
  · contradiction

end

end NanScript
