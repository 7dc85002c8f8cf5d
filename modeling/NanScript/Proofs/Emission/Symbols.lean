import NanScript.Proofs.Emission.Linkage

/-!
# What a program links to

The code of a program begins each of its functions once and names nothing that is neither in the file nor declared. Two things
can still go wrong, and they are described exactly: a function can have the symbol of a top-level variable, and a name that is
defined nowhere else, and so is declared, can be the symbol of the entry or of a top-level variable.
-/

namespace NanScript

open Outline Line Piece
open List hiding all all_nil all_cons all_append

section

variable {program : List Tree} {outline : Outline} {plan : Plan} {free : String → Prop}

variable {name : String} {known : List Nat} {line : Line}

/-! ### Headers -/

theorem Line.Linked.defined?_eq (hline : line.Linked outline free known) : line.defined? = none := by
  cases line with
  | entry | function => exact hline.elim
  | _ => rfl

theorem Plan.Settled.defined (hsettled : plan.Settled program outline) :
    plan.code.filterMap defined? = (plan.front.head?.bind defined?).toList := by
  obtain ⟨line, rest, hcode, hhead, -, hlinked⟩ := hsettled
  have hrest : rest.filterMap defined? = [] :=
    filterMap_eq_nil_iff.2 fun line hline => (hlinked line hline).defined?_eq
  rw [hcode, hhead, filterMap_cons, Option.bind_some]
  cases line.defined? <;> simp [hrest]

/-! ### Files -/

theorem mem_undefinedFunctions {code : Code} : name ∈ undefinedFunctions outline code ↔
    (∃ line ∈ code, line.reference? = some name) ∧ name ∉ outline.functions ∧ name ∉ runtimeExports := by
  simp [undefinedFunctions, definesFunction, mem_eraseDups]

theorem nodup_eraseDups (names : List String) : names.eraseDups.Nodup := by
  induction hlength : names.length using Nat.strong_induction_on generalizing names with
  | _ length ih =>
    cases names with
    | nil => simp
    | cons name rest =>
      rw [eraseDups_cons, nodup_cons]
      have hshorter : (rest.filter fun other => !other == name).length < length := by
        rw [← hlength]
        exact Nat.lt_succ_of_le (length_filter_le _ _)
      exact ⟨by simp [mem_eraseDups], ih _ hshorter _ rfl⟩

theorem nodup_undefinedFunctions {code : Code} : (undefinedFunctions outline code).Nodup :=
  (mergeSort_perm _ _).nodup_iff.2 (nodup_eraseDups _)

/-- What is known of a file. -/
structure Assembly.Settled (program : List Tree) (outline : Outline) (assembly : Assembly) : Prop where
  globals : assembly.globals = outline.globals
  undefined : assembly.undefined = undefinedFunctions outline assembly.code
  defined : assembly.code.filterMap defined? = "main" :: functionNames program
  lettered : ∀ routine ∈ assembly.code.routines, routine.Lettered
  linked : ∀ line ∈ assembly.code, line.isHeader = false → ∃ known, line.Linked outline (Loose program) known
  loose : ∀ name, Loose program name → ∃ line ∈ assembly.code, line.reference? = some name

theorem settled_of_assemble {assembly : Assembly} (hassemble : assemble program = .ok assembly)
    (hprogram : ∀ tree ∈ program, tree.IsDeclaration (globalDeclarations program)) :
    ∃ outline, ofProgram program = .ok outline ∧ assembly.Settled program outline := by
  obtain ⟨outline, plans, hplanned, hsettled, hroutines⟩ := routines_eq_of_assemble hassemble hprogram
  refine ⟨outline, hplanned.outlined, hplanned.globals, hplanned.undefined, ?_, ?_, ?_, ?_⟩
  · have hdefined : (plans.map Plan.code).flatten.filterMap defined? =
        (plans.map (·.front.head?)).flatMap fun head => (head.bind defined?).toList := by
      rw [filterMap_flatten, map_map, flatMap_map, flatMap]
      exact congrArg flatten (map_congr_left fun plan hplan => (hsettled plan hplan).defined)
    rw [hplanned.code, hdefined, hplanned.heads, flatMap_cons, flatMap_map]
    have hnames (names : List String) : (names.flatMap fun name =>
        ((some (function name)).bind defined?).toList) = names := by
      induction names with
      | nil => rfl
      | cons name rest ih =>
        rw [flatMap_cons, ih]
        exact congrArg (· :: rest) (linkName_functionSymbol name)
    rw [hnames]
    rfl
  · intro routine hroutine
    rw [hroutines] at hroutine
    obtain ⟨plan, hplan, rfl⟩ := mem_map.1 hroutine
    exact (hsettled plan hplan).lettered
  · intro line hline hplain
    rw [hplanned.code, mem_flatten] at hline
    obtain ⟨_, hmem, hline⟩ := hline
    obtain ⟨plan, hplan, rfl⟩ := mem_map.1 hmem
    obtain ⟨header, rest, hcode, -, hheader, hlinked⟩ := hsettled plan hplan
    rw [hcode] at hline
    rcases mem_cons.1 hline with rfl | hline
    · rw [hheader] at hplain
      contradiction
    · exact ⟨_, hlinked line hline⟩
  · rintro name ⟨hglobal, tree, htree, note, hnode⟩
    have hfree : outline.isGlobal name = false := by
      rw [Bool.eq_false_iff]
      exact fun hlisted => hglobal ((describes_ofProgram hplanned.outlined).isGlobal_iff.1 hlisted)
    have heach : ∀ tree ∈ program, tree.Each fun node => ∀ note name, node = .var note name .unresolved →
        outline.isGlobal name = false → ∃ line ∈ assembly.code, line.reference? = some name := by
      refine hplanned.each hprogram ?_ (fun _ _ _ _ _ hvar => (nomatch hvar)) fun _ _ _ _ hshape hown => ⟨?_, ?_⟩
      · rintro node houter note name rfl
        obtain ⟨_, hlocal⟩ := houter
        contradiction
      · intro note name hvar hfree
        obtain ⟨line, hline, hname⟩ := hshape.refers hvar hfree
        exact ⟨line, hown hline, hname⟩
      · intro _ _ _ _ hcall hdirect _ _ hvar _
        obtain ⟨line, hline, hname⟩ := hshape.calls hcall hdirect
        obtain ⟨_, rfl, -⟩ := Site.direct_eq_some hdirect
        obtain ⟨-, rfl, -⟩ := Tree.var.inj hvar
        exact ⟨line, hown hline, hname⟩
    exact heach tree htree _ hnode note name rfl hfree

namespace Assembly.Settled

variable {assembly : Assembly}

theorem mem_undefined (hsettled : assembly.Settled program outline) (hdescribes : Describes {} program outline)
    : name ∈ assembly.undefined ↔ Loose program name ∧ name ∉ functionNames program ∧ name ∉ runtimeExports := by
  have hfunctions : outline.functions = functionNames program := hdescribes.functions
  rw [hsettled.undefined, mem_undefinedFunctions, hfunctions]
  refine and_congr_left fun ⟨hfunction, hexport⟩ => ⟨?_, hsettled.loose name⟩
  rintro ⟨line, hline, hname⟩
  have hplain : line.isHeader = false := by
    cases line with
    | instruction => rfl
    | _ => contradiction
  obtain ⟨known, hlinked⟩ := hsettled.linked line hline hplain
  have hknown : name ∈ runtimeExports ∨ name ∈ outline.functions ∨ Loose program name := by
    cases line with
    | instruction instruction =>
      cases instruction with
      | call | functionAddress =>
        obtain rfl := Option.some.inj hname
        exact hlinked
      | _ => contradiction
    | _ => contradiction
  rw [hfunctions] at hknown
  exact (hknown.resolve_left hexport).resolve_left hfunction

variable {symbol : String}

section

variable (hsettled : assembly.Settled program outline)

include hsettled

section

variable (hdescribes : Describes {} program outline)

include hdescribes

theorem mem_declared : symbol ∈ assembly.declared ↔
      symbol ∈ runtimeExports ∨ Loose program symbol ∧ symbol ∉ functionNames program ∧ symbol ∉ runtimeExports := by
  rw [← hsettled.mem_undefined hdescribes, ← mem_append]
  simp [declared, externs]

theorem mem_defined : symbol ∈ assembly.defined ↔
      symbol = "main" ∨ symbol ∈ functionNames program ∨ ∃ name ∈ globalDeclarations program, symbol = globalSymbol name := by
  have hglobals (name : String) : name ∈ outline.globals ↔ name ∈ globalDeclarations program := by
    rw [hdescribes.globals]
    simp
  simp only [Assembly.defined, hsettled.globals, hsettled.defined, linkName_globalSymbol, mem_append, mem_map, hglobals,
    mem_cons, eq_comm (b := symbol)]
  exact or_comm.trans or_assoc

theorem nodup_declared : assembly.declared.Nodup := by
  have hsame : assembly.declared = runtimeExports ++ assembly.undefined := by simp [declared, externs]
  have hexports : runtimeExports.Nodup := by decide
  rw [hsame]
  refine nodup_append.2 ⟨hexports, hsettled.undefined ▸ nodup_undefinedFunctions, ?_⟩
  rintro name hexport _ hundefined rfl
  exact ((hsettled.mem_undefined hdescribes).1 hundefined).2.2 hexport

/-- In the code every symbol is defined once. -/
theorem nodup_code : (assembly.code.filterMap Line.defined?).Nodup := by
  have hfunctions := hdescribes.nodup nodup_nil
  rw [hdescribes.functions] at hfunctions
  rw [hsettled.defined]
  exact nodup_cons.2 ⟨fun hmem => hdescribes.free _ hmem (.inl rfl), hfunctions⟩

/-- A symbol is defined twice only if it is that of a function and of a top-level variable. -/
theorem nodup_defined_iff :
    assembly.defined.Nodup ↔ ∀ name ∈ globalDeclarations program, globalSymbol name ∉ functionNames program := by
  have hcode := hsettled.nodup_code hdescribes
  have hglobals : (outline.globals.map fun name => linkName (globalSymbol name)).Nodup := by
    refine (hdescribes.distinct nodup_nil).map fun first second hsame => ?_
    rw [linkName_globalSymbol, linkName_globalSymbol] at hsame
    exact globalSymbol_injective hsame
  have hlisted (name : String) : name ∈ globalDeclarations program ↔ name ∈ outline.globals := by
    rw [hdescribes.globals]
    simp
  rw [hsettled.defined] at hcode
  rw [Assembly.defined, hsettled.globals, hsettled.defined, nodup_append]
  constructor
  · rintro ⟨-, -, hapart⟩ name hname hfunction
    refine hapart _ (mem_map.2 ⟨name, (hlisted name).1 hname, rfl⟩) _ (mem_cons_of_mem _ hfunction) ?_
    exact linkName_globalSymbol name
  · intro hapart
    refine ⟨hglobals, hcode, ?_⟩
    rintro _ hglobal _ hfunction rfl
    obtain ⟨name, hname, hsymbol⟩ := mem_map.1 hglobal
    rw [linkName_globalSymbol] at hsymbol
    subst hsymbol
    rcases mem_cons.1 hfunction with hentry | hfunction
    · exact not_reserved_globalSymbol name (.inl hentry)
    · exact hapart name ((hlisted name).2 hname) hfunction

/-- A declared symbol that is also defined is loose, and the entry or a top-level variable has it. -/
theorem mem_both_iff : symbol ∈ assembly.defined ∧ symbol ∈ assembly.declared ↔
      Loose program symbol ∧ symbol ∉ functionNames program ∧
        (symbol = "main" ∨ ∃ name ∈ globalDeclarations program, symbol = globalSymbol name) := by
  have hfree : symbol = "main" ∨ (∃ name ∈ globalDeclarations program, symbol = globalSymbol name) → symbol ∉ runtimeExports := by
    rintro (rfl | ⟨name, -, rfl⟩)
    · decide
    · exact fun hexport => not_reserved_globalSymbol name (.inr hexport)
  rw [hsettled.mem_defined hdescribes, hsettled.mem_declared hdescribes]
  constructor
  · rintro ⟨hdefined, hdeclared⟩
    have hexport : symbol ∉ runtimeExports := by
      rcases hdefined with hmain | hfunction | hglobal
      · exact hfree (.inl hmain)
      · exact fun hexport => hdescribes.free _ hfunction (.inr hexport)
      · exact hfree (.inr hglobal)
    obtain ⟨hloose, hfunction, -⟩ := hdeclared.resolve_left hexport
    exact ⟨hloose, hfunction, hdefined.imp_right fun hrest => hrest.resolve_left hfunction⟩
  · rintro ⟨hloose, hfunction, hdefined⟩
    exact ⟨hdefined.imp_right .inr, .inr ⟨hloose, hfunction, hfree hdefined⟩⟩

end

end

/-- Whatever the code names is in the file or declared. -/
theorem mem_of_named (hsettled : assembly.Settled program outline) (hdescribes : Describes {} program outline)
    {line : Line} (hline : line ∈ assembly.code) (hsymbol : symbol ∈ line.named) :
    symbol ∈ assembly.defined ∨ symbol ∈ assembly.declared := by
  rw [hsettled.mem_defined hdescribes, hsettled.mem_declared hdescribes]
  have hplain : line.isHeader = false := by
    cases line with
    | instruction => rfl
    | _ => contradiction
  obtain ⟨known, hlinked⟩ := hsettled.linked line hline hplain
  have hplace {place : Place} (hplace : place.Linked outline) (hsymbol : symbol ∈ place.symbol?) :
      ∃ name ∈ globalDeclarations program, symbol = globalSymbol name := by
    cases place with
    | global name =>
      obtain rfl := Option.some.inj hsymbol
      exact ⟨name, hdescribes.isGlobal_iff.1 hplace, linkName_globalSymbol name⟩
    | _ => contradiction
  cases line with
  | instruction instruction =>
    cases instruction with
    | call name | functionAddress _ name =>
      have hname : symbol = name := (mem_singleton.1 hsymbol).trans (linkName_functionSymbol name)
      have hfunctions : outline.functions = functionNames program := hdescribes.functions
      subst hname
      by_cases hfunction : symbol ∈ functionNames program
      · exact .inl (.inr (.inl hfunction))
      · by_cases hexport : symbol ∈ runtimeExports
        · exact .inr (.inl hexport)
        · have hloose := (Or.resolve_left hlinked hexport).resolve_left (hfunctions ▸ hfunction)
          exact .inr (.inr ⟨hloose, hfunction, hexport⟩)
    | globalAddress _ name =>
      have hname : symbol = globalSymbol name := (mem_singleton.1 hsymbol).trans (linkName_globalSymbol name)
      exact .inl (.inr (.inr ⟨name, hdescribes.isGlobal_iff.1 hlinked, hname⟩))
    | move target source =>
      refine .inl (.inr (.inr ?_))
      rcases mem_append.1 hsymbol with hsymbol | hsymbol
      · exact hplace hlinked.1 (Option.mem_toList.1 hsymbol)
      · exact hplace hlinked.2 (Option.mem_toList.1 hsymbol)
    | pollRequest =>
      obtain rfl := mem_singleton.1 hsymbol
      exact .inr (.inl (by decide))
    | _ => contradiction
  | _ => contradiction

end Assembly.Settled

end

/-- Nothing is declared twice, whatever the code names is in the file or declared, and each text of which a routine takes the
address stands in the same routine. The code begins with the entry and the functions, each once. A symbol is defined a second
time only as that of a top-level variable. A declared symbol is also defined only if some expression uses it as the name of a
function that there is none of, and the entry or a top-level variable has it. -/
theorem symbols_of_assemble {source : String} {assembly : Assembly}
    (hassemble : assemble (parse source).program = .ok assembly) :
    assembly.declared.Nodup ∧
      (∀ line ∈ assembly.code, ∀ symbol ∈ line.named, symbol ∈ assembly.defined ∨ symbol ∈ assembly.declared) ∧
      (∀ routine ∈ assembly.code.routines, routine.Lettered) ∧
      assembly.code.filterMap Line.defined? = "main" :: functionNames (parse source).program ∧
      (assembly.code.filterMap Line.defined?).Nodup ∧
      (assembly.defined.Nodup ↔
        ∀ name ∈ globalDeclarations (parse source).program, globalSymbol name ∉ functionNames (parse source).program) ∧
      ∀ symbol, symbol ∈ assembly.defined ∧ symbol ∈ assembly.declared ↔
        Loose (parse source).program symbol ∧ symbol ∉ functionNames (parse source).program ∧
          (symbol = "main" ∨ ∃ name ∈ globalDeclarations (parse source).program, symbol = globalSymbol name) := by
  obtain ⟨outline, houtline, hsettled⟩ := settled_of_assemble hassemble (isDeclaration_of_parse source)
  have hdescribes := Outline.describes_ofProgram houtline
  exact ⟨hsettled.nodup_declared hdescribes, fun _ hline _ => hsettled.mem_of_named hdescribes hline, hsettled.lettered,
    hsettled.defined, hsettled.nodup_code hdescribes, hsettled.nodup_defined_iff hdescribes, fun _ => hsettled.mem_both_iff hdescribes⟩

set_option maxRecDepth 4000 in
/-- A class, a variable and a function from elsewhere. -/
theorem symbols_of_assemble_class :
    let source := "var x; class A \x7b func m() \x7b x = \"s\"; other(new A()); \x7d \x7d"
    ∃ assembly, assemble (parse source).program = .ok assembly ∧ assembly.undefined = ["other"] ∧ assembly.declared.Nodup ∧
      assembly.code.filterMap Line.defined? = ["main", "A_m"] ∧ assembly.defined.Nodup := by
  intro source
  have hchecked : checked (parse source).program (fun assembly => decide (assembly.undefined = ["other"])) = true := by
    decide +kernel
  have hnames : functionNames (parse source).program = ["A_m"] := by decide +kernel
  have hapart : ∀ name ∈ globalDeclarations (parse source).program, globalSymbol name ∉ ["A_m"] := by decide +kernel
  obtain ⟨assembly, hassemble, hundefined⟩ := exists_of_checked hchecked
  obtain ⟨hdeclared, -, -, hdefined, -, hnodup, -⟩ := symbols_of_assemble hassemble
  rw [hnames] at hdefined hnodup
  exact ⟨assembly, hassemble, of_decide_eq_true hundefined, hdeclared, hdefined, hnodup.2 hapart⟩

set_option maxRecDepth 4000 in
/-- The function `main` has another symbol, so a call of it declares the entry as defined elsewhere. A function can also have
the symbol of a variable. -/
theorem entry_declared_elsewhere :
    (∃ assembly, assemble (parse "func main() \x7b main(); \x7d").program = .ok assembly ∧ "main" ∈ assembly.defined ∧
        "main" ∈ assembly.declared) ∧
      ∃ assembly, assemble (parse "var x; func _aria_global_x() \x7b \x7d").program = .ok assembly ∧ ¬ assembly.defined.Nodup := by
  have hboth : checked (parse "func main() \x7b main(); \x7d").program
      (fun assembly => decide ("main" ∈ assembly.defined ∧ "main" ∈ assembly.declared)) = true := by decide +kernel
  have htwice : checked (parse "var x; func _aria_global_x() \x7b \x7d").program
      (fun assembly => decide (¬ assembly.defined.Nodup)) = true := by decide +kernel
  obtain ⟨first, hfirst, hboth⟩ := exists_of_checked hboth
  obtain ⟨second, hsecond, htwice⟩ := exists_of_checked htwice
  exact ⟨⟨first, hfirst, of_decide_eq_true hboth⟩, second, hsecond, of_decide_eq_true htwice⟩

end NanScript
