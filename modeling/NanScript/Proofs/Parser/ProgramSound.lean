import NanScript.Proofs.Parser.StatementSound
import NanScript.Proofs.Token

/-!
# Programs that are read are programs of the grammar

Functions, classes and whole texts. What is read without a report is a text of the grammar, and it meets every condition
on names, jumps and sizes; the trees are those of the text.
-/

namespace NanScript

open List

namespace Parser

open Grammar State

set_option synthInstance.maxSize 1000

section

variable {context : Context} {ahead : List Grammar.Word} {depth : Nat} {before after : State} {tree : Tree} {trees : List Tree}

/-! ### Parameters -/

/-- The nodes of parameters that keep to all rules. -/
structure ToldParameters (scope : Scope) (names : List String) (trees : List Tree) : Prop where
  trees : trees.map Tree.bare = (buildParameters scope names).1
  nameable : ∀ name ∈ names, Nameable name
  nodup : names.Nodup
  fresh : ∀ name ∈ names, name ∉ scope.here

theorem ToldParameters.nil (scope : Scope) : ToldParameters scope [] [] := ⟨rfl, by simp, nodup_nil, by simp⟩

theorem ToldParameters.cons {scope : Scope} {name : String} {names : List String} {note : Note} (hname : Nameable name)
    (hnew : name ∉ scope.here) (hnames : ToldParameters (scope.bind name) names trees) :
    ToldParameters scope (name :: names) (.var note name scope.nextSymbol :: trees) := by
  have hfresh := hnames.fresh
  rw [Scope.here_bind] at hfresh
  refine ⟨?_, forall_mem_cons.2 ⟨hname, hnames.nameable⟩, nodup_cons.2 ⟨fun hmem => ?_, hnames.nodup⟩,
    forall_mem_cons.2 ⟨hnew, fun other hother hhere => ?_⟩⟩
  · simp [buildParameters, buildParameter, hnames.trees]
  · exact hfresh name hmem (by simp)
  · exact hfresh other hother (by simp [hhere])

theorem namedParameter_sound (hbefore : Stands context ahead before) (hreads : Reads namedParameter before tree after) :
    ∃ name rest note, ahead = identifier name :: rest ∧ Stands (context.within (context.scope.bind name)) rest after ∧
      tree = .var note name context.scope.nextSymbol ∧ Nameable name ∧ name ∉ context.scope.here := by
  obtain ⟨name, rest, named, rfl, hname, hnew, hnamed, hreads⟩ := hbefore.declared hreads
  obtain ⟨marked, hmarked, hreads⟩ := hnamed.modifyScope hreads
  obtain ⟨note, rfl, hafter⟩ := hmarked.alloc hreads
  exact ⟨name, rest, note, rfl, hafter, rfl, hname, hnew⟩

theorem namedParameters_sound {steps : Nat} {items result : List Tree} (hbefore : Stands context ahead before)
    (hsteps : ahead.length < steps)
    (hreads : Reads (sepByBackward .parameters (fun _ => namedParameter) steps items) before result after) :
    ∃ names trees rest, ahead = (Function.commaWords names).tail ++ rest ∧
      Stands (context.within (buildParameters context.scope names).2) rest after ∧ ToldParameters context.scope names trees ∧
      names ≠ [] ∧ result = trees.reverse ++ items := by
  induction steps generalizing context ahead before items with
  | zero => omega
  | succ steps ih =>
    obtain ⟨tree, middle, hread, hreads⟩ := reads_bind.1 hreads
    obtain ⟨name, rest, note, rfl, hmiddle, rfl, hname, hnew⟩ := namedParameter_sound hbefore hread
    rcases reads_accept_bind.1 hreads with ⟨hcomma, next, hadvance, hreads⟩ | ⟨-, hreads⟩
    · obtain ⟨rest, rfl, hnext⟩ := hmiddle.sign hcomma (by decide) hadvance
      simp only [length_cons] at hsteps
      obtain ⟨names, trees, rest, rfl, hafter, hnames, hnonempty, rfl⟩ := ih hnext (by omega) hreads
      refine ⟨name :: names, .var note name _ :: trees, rest, ?_, hafter, .cons hname hnew hnames, by simp, by simp⟩
      obtain ⟨second, others, rfl⟩ := exists_cons_of_ne_nil hnonempty
      simp [Function.commaWords]
    · obtain ⟨-, rfl, rfl⟩ := reads_pure.1 hreads
      exact ⟨[name], _, rest, rfl, hmiddle, .cons hname hnew (.nil _), by simp, rfl⟩

/-- In a new scope the object of a method can always be declared. -/
theorem receiver_sound (hnew : context.scope.here = []) (hbefore : Stands context ahead before)
    (hreads : Reads receiver before trees after) :
    Stands (context.within (buildParameters context.scope (Function.receivers context.className)).2) ahead after ∧
      trees.map Tree.bare = (buildParameters context.scope (Function.receivers context.className)).1 := by
  have hhere : before.scope.declaredHere? thisName = none := by
    rw [Scope.declaredHere?_eq_none, hbefore.scope, hnew]
    simp
  obtain ⟨hframed, hwords, rfl⟩ := hbefore
  unfold receiver parameter at hreads
  rw [reads_get_bind] at hreads
  obtain howner | ⟨owner, howner⟩ : before.context.className = none ∨ ∃ owner, before.context.className = some owner :=
    Option.eq_none_or_eq_some _
  · rw [howner]
    simp only [State.context] at howner
    simp only [howner, Option.isNone_none, if_true, reads_pure] at hreads
    obtain ⟨-, rfl, rfl⟩ := hreads
    exact ⟨⟨hframed, hwords, rfl⟩, rfl⟩
  · rw [howner]
    simp only [State.context] at howner
    simp only [howner, Option.isNone_some, Bool.false_eq_true, if_false, reads_bind, reads_intern, reads_modifyScope,
      reads_alloc, reads_pure] at hreads
    obtain ⟨_, _, ⟨-, -, rfl, rfl⟩, _, _, hdeclare, _, _, ⟨_, _, ⟨-, rfl⟩, -, rfl, rfl⟩, -, rfl, rfl⟩ := hreads
    obtain ⟨-, rfl, rfl⟩ := (reads_declare_new hhere).1 hdeclare
    exact ⟨⟨hframed, hwords, rfl⟩, rfl⟩

/-- The parameter list of a function, with its parentheses. The object of a method is declared in front of it. -/
theorem parameters_sound {steps : Nat} (hnew : context.scope.here = []) (hbefore : Stands context ahead before)
    (hsteps : ahead.length ≤ steps) (hreads : Reads (parameters steps) before trees after) :
    ∃ names rest, ahead = sign .lparen :: (Function.commaWords names).tail ++ sign .rparen :: rest ∧
      Stands (context.within (buildParameters context.scope (Function.receivers context.className ++ names)).2) rest after ∧
      trees.map Tree.bare = (buildParameters context.scope (Function.receivers context.className ++ names)).1 ∧
      (∀ name ∈ names, Nameable name) ∧ (Function.receivers context.className ++ names).Nodup := by
  obtain ⟨first, declared, hreceiver, hreads⟩ := reads_bind.1 hreads
  obtain ⟨hdeclared, hfirst⟩ := receiver_sound hnew hbefore hreceiver
  obtain ⟨rest, opened, rfl, hopened, hreads⟩ := hdeclared.consume (by decide) hreads
  have hlist : ∃ names others rest' middle, rest = (Function.commaWords names).tail ++ rest' ∧
      Stands (context.within (buildParameters context.scope (Function.receivers context.className ++ names)).2) rest' middle ∧
      ToldParameters (buildParameters context.scope (Function.receivers context.className)).2 names others ∧
      Reads (do
        consume .rparen "')' after parameters"
        return first ++ others) middle trees after := by
    simp only [buildParameters_append]
    rw [parser_liftM, reads_check_bind] at hreads
    rcases reads_ite.1 hreads with ⟨-, hreads⟩ | ⟨-, hreads⟩
    · exact ⟨[], [], rest, opened, rfl, hopened, .nil _, by rwa [append_nil]⟩
    · obtain ⟨_, middle, hlist, hreads⟩ := reads_bind.1 hreads
      obtain ⟨result, _, hread, hlist⟩ := reads_bind.1 hlist
      obtain ⟨-, rfl, rfl⟩ := reads_pure.1 hlist
      obtain ⟨names, others, rest, rfl, hmiddle, hnames, -, rfl⟩ := namedParameters_sound hopened hsteps hread
      exact ⟨names, others, rest, _, rfl, hmiddle, hnames, by simpa using hreads⟩
  obtain ⟨names, others, rest, middle, rfl, hmiddle, hnames, hreads⟩ := hlist
  obtain ⟨rest, closed, rfl, hclosed, hreads⟩ := hmiddle.consume (by decide) hreads
  obtain ⟨-, rfl, rfl⟩ := reads_pure.1 hreads
  refine ⟨names, rest, rfl, hclosed, ?_, hnames.nameable, ?_⟩
  · rw [map_append, hfirst, hnames.trees, buildParameters_append]
  · have hfresh := hnames.fresh
    rw [(extends_buildParameters context.scope (Function.receivers context.className)).here, hnew] at hfresh
    refine nodup_append.2 ⟨?_, hnames.nodup, ?_⟩
    · cases context.className <;> simp [Function.receivers]
    · rintro receiver hreceiver name hname rfl
      exact hfresh receiver hname (by simpa using hreceiver)

/-! ### Functions -/

/-- The tree of a function that keeps to all rules. -/
structure ToldFunction (context : Context) (function : Function) (tree : Tree) : Prop where
  tree : tree.bare = (function.build context.className context.scope).1
  grammatical : Statement.AllGrammatical function.body
  admissible : function.Admissible context.className

theorem reads_codeName {function : Function} {name : String}
    (hlast : before.previous.lexeme = function.name) (hreads : Reads (codeName function.name) before name after) :
    name = function.codeName before.className ∧
      (∀ owner ∈ before.className, Nameable s!"{owner}_{function.name}") ∧ after = before := by
  unfold codeName at hreads
  rw [reads_get_bind] at hreads
  obtain howner | ⟨owner, howner⟩ := Option.eq_none_or_eq_some before.className
  · simp only [howner] at hreads
    rw [reads_previous_bind, hlast, reads_ite] at hreads
    rw [howner]
    rcases hreads with ⟨hmain, hreads⟩ | ⟨hmain, hreads⟩
    · obtain ⟨-, -, rfl, rfl⟩ := reads_intern.1 hreads
      refine ⟨?_, by simp, rfl⟩
      simp [Function.codeName, beq_iff_eq.1 hmain]
    · obtain ⟨-, rfl, rfl⟩ := reads_pure.1 hreads
      refine ⟨?_, by simp, rfl⟩
      have hother : function.name ≠ "main" := by simpa using hmain
      simp [Function.codeName, hother]
  · simp only [howner] at hreads
    obtain ⟨-, hname, rfl, rfl⟩ := reads_intern.1 hreads
    rw [howner]
    exact ⟨rfl, by simpa using hname, rfl⟩

theorem reads_method {result : Option Tree} : Reads (method depth) before result after ↔
      before.current.kind = .kwFunc ∧ ∃ next tree, Reads advance before () next ∧ Reads (function depth) next tree after ∧
        result = some tree := by
  unfold method
  rw [parser_liftM, reads_accept_bind]
  constructor
  · rintro (⟨hkind, next, hadvance, hmap⟩ | ⟨-, herror⟩)
    · obtain ⟨tree, hread, rfl⟩ := reads_map.1 hmap
      exact ⟨hkind, next, tree, hadvance, hread, rfl⟩
    · simp at herror
  · rintro ⟨hkind, next, tree, hadvance, hread, rfl⟩
    exact .inl ⟨hkind, next, hadvance, reads_map.2 ⟨tree, hread, rfl⟩⟩

section

variable (hbefore : Stands context ahead before) (hsteady : context.scope.Steady) (hlength : ahead.length + 1 < depth)

include hbefore hsteady hlength

/-- A function from its parameters on, whatever node is then made of it. -/
theorem parametersAndBody_sound {name : String} {result : List Tree × Tree} (hname : Nameable name)
    (hmangled : ∀ owner ∈ context.className, Nameable s!"{owner}_{name}")
    (hreads : Reads (parametersAndBody depth) before result after) :
    ∃ function rest, identifier name :: ahead = function.tailWords ++ rest ∧
      Stands (context.within (function.build context.className context.scope).2) rest after ∧
      ∀ note, ToldFunction context function (.funcDecl note (function.codeName context.className) name result.1 result.2) ∧
        function.name = name := by
  unfold parametersAndBody at hreads
  rw [reads_get_bind] at hreads
  have hloops : before.loopDepth = context.loopDepth := congrArg Context.loopDepth hbefore.context
  obtain ⟨cleared, hcleared, hreads⟩ := hbefore.setLoops (fun _ => 0) hreads
  obtain ⟨entered, hentered, hreads⟩ := hcleared.modifyScope hreads
  obtain ⟨trees, front, hread, hreads⟩ := reads_bind.1 hreads
  obtain ⟨names, rest, rfl, hfront, htrees, hnameable, hnodup⟩ :=
    parameters_sound hsteady.here_enter hentered (by omega) hread
  obtain ⟨rest, opened, rfl, hopened, hreads⟩ := hfront.consume (by decide) hreads
  obtain ⟨tree, middle, hread', hreads⟩ := reads_bind.1 hreads
  have hextends := extends_buildParameters context.scope.enter (Function.receivers context.className ++ names)
  simp only [cons_append, length_cons, length_append] at hlength
  obtain ⟨members, rest, hwords, hmiddle, hmembers⟩ :=
    block_sound (statement_sound depth) hopened (by omega) (hextends.steady hsteady.enter) hread'
  obtain ⟨left, hleft, hreads⟩ := hmiddle.modifyScope hreads
  obtain ⟨restored, hrestored, hreads⟩ := hleft.setLoops (fun _ => before.loopDepth) hreads
  obtain ⟨-, rfl, rfl⟩ := reads_pure.1 hreads
  rw [hloops] at hrestored
  refine ⟨⟨name, names, members⟩, rest, by simp [Function.tailWords, hwords], hrestored, fun note => ⟨⟨?_, hmembers.grammatical,
    hname, hmangled, hnameable, hnodup, hmembers.admissible⟩, rfl⟩⟩
  simp [Function.build, Function.allParameters, htrees, hmembers.tree]

theorem function_sound (hreads : Reads (function depth) before tree after) :
    ∃ function rest, sign .kwFunc :: ahead = function.words ++ rest ∧
      Stands (context.within (function.build context.className context.scope).2) rest after ∧
      ToldFunction context function tree := by
  obtain ⟨name, rest, named, rfl, hname, hlast, hnamed, hreads⟩ := hbefore.named hreads
  have hclass : named.className = context.className := congrArg Context.className hnamed.context
  obtain ⟨code, coded, hcode, hreads⟩ := reads_bind.1 hreads
  obtain ⟨rfl, hmangled, rfl⟩ := @reads_codeName _ _ ⟨name, [], []⟩ _ hlast hcode
  rw [hclass] at hmangled
  obtain ⟨result, behind, hread, hreads⟩ := reads_bind.1 hreads
  obtain ⟨function, rest, hwords, hbehind, hfunction⟩ :=
    parametersAndBody_sound hnamed hsteady (Nat.lt_of_succ_lt hlength) hname hmangled hread
  obtain ⟨linked, hlinked, hreads⟩ := hbehind.link hreads
  obtain ⟨note, rfl, hafter⟩ := hlinked.alloc hreads
  obtain ⟨htold, rfl⟩ := hfunction note
  rw [hclass]
  exact ⟨function, rest, by simp [Function.words, hwords], hafter, htold⟩

/-! ### Classes -/

/-- The tree of a declaration that keeps to all rules. -/
structure ToldDeclaration (scope : Scope) (declaration : Declaration) (tree : Tree) : Prop where
  tree : tree.bare = (declaration.build scope).1
  grammatical : declaration.Grammatical
  admissible : declaration.Admissible
  fresh : ∀ name ∈ declaration.global?, name ∉ scope.here

theorem methods_sound {count : Nat} (hmembers : Members endsBody (method depth) count before trees after) :
    ∃ methods rest, ahead = methods.flatMap Function.words ++ rest ∧
      Stands (context.within (Function.buildAll context.className context.scope methods).2) rest after ∧
      trees.map Tree.bare = (Function.buildAll context.className context.scope methods).1 ∧
      (∀ method ∈ methods, Statement.AllGrammatical method.body) ∧ ∀ method ∈ methods, method.Admissible context.className := by
  induction hmembers generalizing context ahead with
  | nil => exact ⟨[], ahead, rfl, hbefore, rfl, by simp, by simp⟩
  | cons _ hmethod _ ih =>
    obtain ⟨hkind, next, tree, hadvance, hread, rfl⟩ := reads_method.1 hmethod
    obtain ⟨rest, rfl, hnext⟩ := hbefore.sign hkind (by decide) hadvance
    obtain ⟨function, rest', hwords, hmiddle, hfunction⟩ := function_sound hnext hsteady (Nat.lt_of_succ_lt hlength) hread
    rw [hwords, length_append] at hlength
    have hextends := function.extends_build hsteady context.className hfunction.grammatical
    obtain ⟨methods, rest, rfl, hafter, htrees, hgrammatical, hadmissible⟩ :=
      ih hmiddle (hextends.steady hsteady) (by omega)
    exact ⟨function :: methods, rest, by simp [hwords], hafter, by simp [Function.buildAll, hfunction.tree, htrees],
      forall_mem_cons.2 ⟨hfunction.grammatical, hgrammatical⟩,
      forall_mem_cons.2 ⟨hfunction.admissible, hadmissible⟩⟩

theorem classDeclaration_sound (hreads : Reads (classDeclaration depth) before tree after) :
    ∃ declaration rest, sign .kwClass :: ahead = declaration.words ++ rest ∧
      Stands (context.within (declaration.build context.scope).2) rest after ∧
      ToldDeclaration context.scope declaration tree := by
  obtain ⟨name, rest, named, rfl, hname, -, hnamed, hreads⟩ := hbefore.named hreads
  obtain ⟨rest, opened, rfl, hopened, hreads⟩ := hnamed.consume (by decide) hreads
  have hclass : opened.className = context.className := congrArg Context.className hopened.context
  rw [reads_get_bind, hclass] at hreads
  obtain ⟨entered, hentered, hreads⟩ := hopened.setClass hreads
  obtain ⟨trees, middle, hbody, hreads⟩ := reads_bind.1 hreads
  obtain ⟨count, hmembers, -, -⟩ := reads_body.1 hbody
  simp only [length_cons] at hlength
  obtain ⟨methods, rest, rfl, hmiddle, htrees, hgrammatical, hadmissible⟩ :=
    methods_sound hentered hsteady (by omega) hmembers
  obtain ⟨left, hleft, hreads⟩ := hmiddle.setClass hreads
  obtain ⟨rest, closed, rfl, hclosed, hreads⟩ := hleft.consume (by decide) hreads
  obtain ⟨linked, hlinked, hreads⟩ := hclosed.link hreads
  obtain ⟨note, rfl, hafter⟩ := hlinked.alloc hreads
  exact ⟨.classDecl name methods, rest, by simp [Declaration.words], hafter, by simp [Declaration.build, htrees], hgrammatical,
    ⟨hname, hadmissible⟩, by simp [Declaration.global?]⟩

/-! ### Programs -/

/-- The trees of declarations that keep to all rules. -/
structure ToldProgram (scope : Scope) (program : Program) (trees : List Tree) : Prop where
  trees : trees.map Tree.bare = (program.build scope).1
  grammatical : program.Grammatical
  admissible : ∀ declaration ∈ program, declaration.Admissible
  nodup : (program.filterMap Declaration.global?).Nodup
  fresh : ∀ name ∈ program.filterMap Declaration.global?, name ∉ scope.here

/-- In front of the end of the text every declaration has a keyword. -/
theorem declaration_sound {result : Option Tree} (hglobal : context.className = none)
    (hreads : Reads (declaration depth) before result after) :
    ∃ declaration rest tree, result = some tree ∧ ahead = declaration.words ++ rest ∧
      Stands (context.within (declaration.build context.scope).2) rest after ∧
      ToldDeclaration context.scope declaration tree := by
  have hdeclared (h : DeclaredFrom context ahead result after) : ∃ declaration rest tree, result = some tree ∧
      ahead = declaration.words ++ rest ∧ Stands (context.within (declaration.build context.scope).2) rest after ∧
      ToldDeclaration context.scope declaration tree := by
    obtain ⟨var, rest, tree, hresult, hwords, hafter, hvar⟩ := h
    exact ⟨.varDecl var, rest, tree, hresult, hwords, hafter, hvar.tree, hvar.grammatical, ⟨hvar.nameable, hvar.limits⟩,
      by simpa [Declaration.global?] using hvar.fresh⟩
  unfold declaration at hreads
  rw [reads_get_bind] at hreads
  split at hreads
  · rename_i hkind
    obtain ⟨rest, middle, tree, rfl, hmiddle, rfl, hread⟩ := hbefore.keyword hkind (by decide) hreads
    obtain ⟨function, rest, hwords, hafter, hfunction⟩ :=
      function_sound hmiddle hsteady (Nat.lt_of_succ_lt hlength) hread
    have htree := hfunction.tree
    have hadmissible := hfunction.admissible
    rw [hglobal] at htree hadmissible hafter
    exact ⟨.funcDecl function, rest, tree, rfl, hwords, hafter, htree, hfunction.grammatical, hadmissible,
      by simp [Declaration.global?]⟩
  · rename_i hkind
    obtain ⟨rest, middle, tree, rfl, hmiddle, rfl, hread⟩ := hbefore.keyword hkind (by decide) hreads
    obtain ⟨declaration, rest, hwords, hafter, hdeclaration⟩ :=
      classDeclaration_sound hmiddle hsteady (Nat.lt_of_succ_lt hlength) hread
    exact ⟨declaration, rest, tree, rfl, hwords, hafter, hdeclaration⟩
  · rename_i hkind
    exact hdeclared (localVar_sound hbefore (by omega) hsteady hkind hreads)
  · rename_i hkind
    exact hdeclared (managedVar_sound hbefore (by omega) hsteady hkind hreads)
  · simp at hreads

theorem declarations_sound {count : Nat} (hglobal : context.className = none)
    (hmembers : Members (· == .eof) (declaration depth) count before trees after) :
    ∃ (program : Program) (rest : _), ahead = program.words ++ rest ∧ rest = after.words ∧
      ToldProgram context.scope program trees ∧ count ≤ ahead.length := by
  induction hmembers generalizing context ahead with
  | nil => exact ⟨[], ahead, rfl, hbefore.words.symm, ⟨rfl, by simp [Program.Grammatical], by simp, nodup_nil, by simp⟩,
      Nat.zero_le _⟩
  | cons _ hread _ ih =>
    obtain ⟨declaration, rest, tree, rfl, rfl, hmiddle, hdeclaration⟩ := declaration_sound hbefore hsteady hlength hglobal hread
    have hextends := declaration.extends_build hsteady hdeclaration.grammatical
    have hnonempty := length_pos_iff.2 declaration.words_ne_nil
    rw [length_append] at hlength ⊢
    obtain ⟨program, rest, rfl, hrest, hprogram, hcount⟩ := ih hmiddle (hextends.steady hsteady) (by omega) hglobal
    obtain ⟨hnodup, hfresh⟩ := hextends.fresh_append (by cases declaration.global? <;> simp)
      (by simpa using hdeclaration.fresh) hprogram.nodup hprogram.fresh
    rw [← filterMap_cons_toList] at hnodup hfresh
    exact ⟨declaration :: program, rest, by simp [Program.words], hrest,
      ⟨by simp [Program.build, hdeclaration.tree, hprogram.trees],
        forall_mem_cons.2 ⟨hdeclaration.grammatical, hprogram.grammatical⟩,
        forall_mem_cons.2 ⟨hdeclaration.admissible, hprogram.admissible⟩, hnodup, hfresh⟩, by omega⟩

end

end

theorem framed_shift_initial {tokens : List Token} (htokens : FramedTokens tokens) :
    (State.initial tokens).shift.Framed ∧ tokens.map Token.word = (State.initial tokens).shift.words ++ [sign .eof] := by
  obtain ⟨more, last, rfl, hlast, hmore⟩ := htokens
  have hend : last.word = sign .eof := Token.word_eq_sign hlast rfl
  match more, hmore with
  | [], _ =>
    refine ⟨⟨last, hlast, .inl ⟨rfl, rfl⟩⟩, ?_⟩
    simp [State.shift, State.initial, State.words, hlast, hend]
  | [token], hmore =>
    have htoken : token.kind ≠ .eof := hmore token (by simp)
    refine ⟨⟨last, hlast, .inr ⟨htoken, [], rfl, by simp⟩⟩, ?_⟩
    simp [State.shift, State.initial, State.words, htoken, hend]
  | token :: second :: others, hmore =>
    have htoken : token.kind ≠ .eof := hmore token (by simp)
    have hothers : ∀ other ∈ second :: others, other.kind ≠ .eof := fun other hother => hmore other (by simp_all)
    refine ⟨⟨last, hlast, .inr ⟨htoken, second :: others, rfl, hothers⟩⟩, ?_⟩
    simp [State.shift, State.initial, State.words, htoken, hend, dropLast_cons_of_ne_nil]

theorem program_sound {tokens : List Token} {trees : List Tree} {after : State} (htokens : FramedTokens tokens)
    (hreads : Reads (program (depthBound tokens)) (State.initial tokens) trees after) :
    ∃ program : Program, tokens.map Token.word = program.words ++ [sign .eof] ∧ program.Grammatical ∧
      program.Admissible ∧ trees.map Tree.bare = program.trees := by
  unfold program at hreads
  simp only [parser_liftM, reads_bind, reads_body, reads_link, reads_pure] at hreads
  obtain ⟨_, first, hadvance, _, middle, ⟨count, hmembers, -, hend⟩, _, _, ⟨-, rfl⟩, -, rfl, rfl⟩ := hreads
  obtain ⟨-, -, rfl⟩ := reads_advance.1 hadvance
  obtain ⟨hframed, hwords⟩ := framed_shift_initial htokens
  have hfirst : Stands ⟨Scope.initial, none, 0⟩ (State.initial tokens).shift.words (State.initial tokens).shift := by
    refine ⟨hframed, rfl, ?_⟩
    unfold State.shift
    split <;> rfl
  have hlengths := congrArg length hwords
  simp only [length_map, length_append, length_singleton] at hlengths
  have hlength : (State.initial tokens).shift.words.length + 1 < depthBound tokens := by
    unfold depthBound
    omega
  obtain ⟨program, rest, hahead, hrest, hprogram, hcount⟩ :=
    declarations_sound hfirst Scope.steady_initial hlength rfl hmembers
  -- Every declaration has words of its own, so the steps have not run out: the end of the text is reached.
  have hended : rest = [] := by
    rw [hrest]
    rcases hend with hend | hend
    · exact words_eq_nil.2 (by simpa using hend)
    · omega
  refine ⟨program, ?_, hprogram.grammatical, ⟨hprogram.nodup, hprogram.admissible⟩, hprogram.trees⟩
  rw [hwords, hahead, hended, append_nil]

/-- A text without a report has been read as a whole, by a run without a report. -/
theorem reads_of_parse {source : String} (hsilent : (parse source).errors = []) :
    ∃ after, Reads (program (depthBound (tokens source))) (State.initial (tokens source)) (parse source).program after ∧
      after.arena = (parse source).arena := by
  have hclean : (State.initial (tokens source)).Clean := ⟨rfl, rfl⟩
  have hhonest : Honest (program (depthBound (tokens source))) := inferInstance
  refine ⟨((program (depthBound (tokens source)) : Parser _) (State.initial (tokens source))).2, ⟨hclean, rfl, ?_⟩, rfl⟩
  exact ((hhonest.keeps _).1 hclean.coherent).clean (Array.toList_eq_nil_iff.1 hsilent)

end Parser

/-- Whatever is parsed without a report is a text of the grammar, and the trees are those of the text. -/
theorem parse_sound {source : String} (hsilent : (parse source).errors = []) :
    ∃ program : Grammar.Program, (tokens source).map Token.word = program.words ++ [Grammar.sign .eof] ∧
      program.Grammatical ∧ program.Admissible ∧ (parse source).program.map Tree.bare = program.trees := by
  obtain ⟨after, hreads, -⟩ := Parser.reads_of_parse hsilent
  exact Parser.program_sound (tokens_framed source) hreads

end NanScript
