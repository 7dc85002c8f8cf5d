import NanScript.Proofs.Grammar.Fine
import NanScript.Proofs.Parser.ProgramSound
import NanScript.Proofs.Parser.StatementComplete

/-!
# Programs are read

Functions, classes and whole texts: a text of the grammar that meets every condition is read without a report. Together
with what is known of the trees that are read, this says which texts are accepted.
-/

namespace NanScript

open Scope List

namespace Parser

open Grammar State

variable {depth : Nat} {context : Context} {before : State} {rest : List Grammar.Word}

/-- The parser has gone on to `rest`, and the scope may have some new names. -/
def Passes (context : Context) (names : List String) (rest : List Grammar.Word) (after : State) : Prop :=
  ∃ scope, Extends context.scope names scope ∧ Awaits { context with scope } rest after

theorem Awaits.passes (h : Awaits context rest before) : Passes context [] rest before :=
  ⟨context.scope, .refl _, h⟩

theorem length_le_flatMap {α β : Type} {words : α → List β} {items : List α} (h : ∀ item, words item ≠ []) :
    items.length ≤ (items.flatMap words).length := by
  induction items with
  | nil => exact Nat.zero_le _
  | cons item others ih =>
    have hnonempty := length_pos_iff.2 (h item)
    simp only [flatMap_cons, length_append, length_cons]
    omega

/-! ### Parameters -/

variable {name : String}

theorem namedParameter_complete (hname : Nameable name) (hfresh : name ∉ context.scope.here)
    (h : Awaits context (identifier name :: rest) before) :
    Succeeds namedParameter before fun _ => Passes context [name] rest := by
  refine h.consumeName.bind ?_
  rintro _ named ⟨hlast, hnamed⟩
  refine (hnamed.declarePrevious hlast hname hfresh).bind ?_
  rintro _ declared ⟨rfl, hdeclared⟩
  exact hdeclared.modifyScope.bind fun _ _ hmarked =>
    hmarked.alloc fun _ _ hafter => ⟨_, extends_bind context.scope name, hafter⟩

variable {names : List String}

theorem namedParameters_complete {steps : Nat} {items : List Tree} (hnonempty : names ≠ [])
    (hnameable : ∀ name ∈ names, Nameable name) (hnodup : names.Nodup)
    (hfresh : ∀ name ∈ names, name ∉ context.scope.here) (hend : headKind rest ≠ .comma) (hsteps : names.length ≤ steps)
    (h : Awaits context ((Function.commaWords names).tail ++ rest) before) :
    Succeeds (sepByBackward .parameters (fun _ => namedParameter) steps items) before fun _ => Passes context names rest := by
  induction names generalizing context before steps items with
  | nil => contradiction
  | cons name others ih =>
    obtain ⟨steps, rfl⟩ := Nat.exists_eq_add_one_of_ne_zero (Nat.ne_of_gt (Nat.zero_lt_of_lt hsteps))
    have hnameable' : ∀ other ∈ others, Nameable other := fun other hmem => hnameable other (mem_cons_of_mem _ hmem)
    unfold sepByBackward
    refine (namedParameter_complete (hnameable name (by simp)) (hfresh name (by simp)) h).bind ?_
    rintro tree middle ⟨scope, hextends, hmiddle⟩
    cases others with
    | nil =>
      refine (hmiddle.reject hend).bind ?_
      rintro _ after ⟨rfl, hafter⟩
      exact hafter.pure ⟨scope, hextends, hafter⟩
    | cons second more =>
      refine hmiddle.accept.bind ?_
      rintro _ next ⟨rfl, hnext⟩
      obtain ⟨hnodup', hfresh'⟩ := hextends.fresh_tail (by exact hnodup) (by exact hfresh)
      have hread := @ih { context with scope } next steps (tree :: items) (by simp) hnameable' hnodup' hfresh'
        (Nat.le_of_succ_le_succ hsteps) hnext
      refine hread.mono ?_
      rintro _ _ ⟨_, hextends', hafter⟩
      exact ⟨_, hextends.trans hextends', hafter⟩

theorem receiver_complete (hnew : context.scope.here = []) (h : Awaits context rest before) :
    Succeeds receiver before fun _ => Passes context (Function.receivers context.className) rest := by
  unfold receiver
  rw [succeeds_get_bind, show before.className = context.className from congrArg Context.className h.context]
  obtain howner | ⟨owner, howner⟩ := Option.eq_none_or_eq_some context.className
  · simp only [howner, Option.isNone_none, if_true]
    exact h.pure h.passes
  · have hhere : before.scope.declaredHere? thisName = none := by
      rw [declaredHere?_eq_none, h.scope, hnew]
      simp
    have hdeclare : Succeeds (declare thisName none) before fun symbol after => symbol = context.scope.nextSymbol ∧
        Awaits { context with scope := context.scope.declare thisName } rest after := by
      obtain ⟨⟨hframed, hwords, rfl⟩, hclean, hfine⟩ := h
      exact ⟨_, _, (reads_declare_new hhere).2 ⟨hclean, rfl, rfl⟩, rfl, ⟨hframed, hwords, rfl⟩,
        ⟨hclean.silent, hclean.calm⟩, hfine⟩
    rw [howner, if_neg (by simp), intern_of_nameable (show Nameable thisName by decide), pure_bind]
    refine hdeclare.bind ?_
    rintro _ declared ⟨rfl, hdeclared⟩
    have hparameter : Succeeds (parameter thisName context.scope.nextSymbol) declared fun _ =>
        Passes context [thisName] rest :=
      hdeclared.modifyScope.bind fun _ _ hmarked =>
        hmarked.alloc fun _ _ hafter => ⟨_, extends_bind context.scope thisName, hafter⟩
    refine hparameter.bind ?_
    rintro _ _ ⟨_, hextends, hafter⟩
    exact hafter.pure ⟨_, hextends, hafter⟩

theorem parameters_complete {steps : Nat} (hnew : context.scope.here = []) (hnameable : ∀ name ∈ names, Nameable name)
    (hnodup : (Function.receivers context.className ++ names).Nodup) (hsteps : names.length ≤ steps)
    (h : Awaits context (sign .lparen :: ((Function.commaWords names).tail ++ sign .rparen :: rest)) before) :
    Succeeds (parameters steps) before fun _ => Passes context (Function.receivers context.className ++ names) rest := by
  refine (receiver_complete hnew h).bind ?_
  rintro first declared ⟨scope, hextends, hdeclared⟩
  refine hdeclared.consume.bind fun _ opened hopened => ?_
  have hclose : ∀ all middle, Passes { context with scope } names (sign .rparen :: rest) middle → Succeeds (do
      consume .rparen "')' after parameters"
      return all) middle fun (_ : List Tree) => Passes context (Function.receivers context.className ++ names) rest := by
    rintro all middle ⟨scope', hextends', hmiddle⟩
    exact hmiddle.consume.bind fun _ _ hafter => hafter.pure ⟨scope', hextends.trans hextends', hafter⟩
  rw [parser_liftM, succeeds_check_bind]
  cases names with
  | nil =>
    have hcheck : opened.check .rparen = true := by simp [hopened.check, Function.commaWords]
    rw [hcheck]
    exact hclose first opened hopened.passes
  | cons name others =>
    have hcheck : opened.check .rparen = false := by simp [hopened.check, Function.commaWords, identifier]
    obtain ⟨hnodup', hfresh⟩ := hextends.fresh_tail hnodup (by simp [hnew])
    have hlist : Succeeds (sepBy .parameters (fun _ => namedParameter) steps first) opened fun _ =>
        Passes { context with scope } (name :: others) (sign .rparen :: rest) := by
      refine (@namedParameters_complete _ _ _ (name :: others) steps first.reverse (by simp) hnameable hnodup' hfresh
        (by simp) hsteps hopened).bind ?_
      rintro _ _ ⟨scope', hextends', hafter⟩
      exact hafter.pure ⟨scope', hextends', hafter⟩
    rw [hcheck]
    exact hlist.bind hclose

/-! ### Functions -/

theorem codeName_complete (hlast : before.previous.lexeme = name)
    (hmangled : ∀ owner ∈ context.className, Nameable s!"{owner}_{name}") (h : Awaits context rest before) :
    Succeeds (codeName name) before fun _ => Awaits context rest := by
  unfold codeName
  rw [succeeds_get_bind, show before.className = context.className from congrArg Context.className h.context]
  obtain howner | ⟨owner, howner⟩ := Option.eq_none_or_eq_some context.className
  · rw [howner, succeeds_previous_bind, hlast]
    split
    · rw [intern_of_nameable (show Nameable mainSymbol by decide)]
      exact h.pure h
    · exact h.pure h
  · rw [howner]
    simp only [intern_of_nameable (hmangled owner howner)]
    exact h.pure h

section

variable (hsteady : context.scope.Steady)

include hsteady

theorem parametersAndBody_complete {members : List Statement} (hnameable : ∀ name ∈ names, Nameable name)
    (hnodup : (Function.receivers context.className ++ names).Nodup) (hgrammatical : Statement.AllGrammatical members)
    (hadmissible : (Statement.block members).Admissible false) (hsteps : names.length ≤ depth)
    (hdepth : (Statement.allWords members).length < depth)
    (h : Awaits context (sign .lparen :: ((Function.commaWords names).tail ++ sign .rparen ::
      ((Statement.block members).words ++ rest))) before) :
    Succeeds (parametersAndBody depth) before fun _ => Passes context [] rest := by
  -- The body is settled first: its words stay what they are.
  obtain ⟨settled, hsettled⟩ := Statement.exists_settlesAll members
  obtain ⟨hdeclared, hadmissible⟩ := hadmissible
  simp only [Statement.words, ← hsettled.words, cons_append, append_assoc, nil_append] at h hdepth
  unfold parametersAndBody
  rw [succeeds_get_bind, show before.loopDepth = context.loopDepth from congrArg Context.loopDepth h.context]
  refine (h.setLoops fun _ => 0).bind fun _ _ hfree => hfree.modifyScope.bind fun _ _ hentered => ?_
  refine (@parameters_complete { context with scope := context.scope.enter, loopDepth := 0 } _ _ _ _ hsteady.here_enter
    hnameable hnodup hsteps hentered).bind ?_
  rintro trees front ⟨scope, hextends, hfront⟩
  refine hfront.consume.bind fun _ opened hopened => ?_
  have hsteady' := hextends.steady hsteady.enter
  have hgrammatical' := hsettled.grammatical hgrammatical
  have hadmissible' : (Statement.block settled).Admissible false :=
    ⟨hsettled.declared? ▸ hdeclared, hsettled.admissible hadmissible⟩
  refine (@block_complete depth ⟨scope, context.className, 0⟩ _ _ _ (statement_complete depth) _ hsteady' hgrammatical'
    hadmissible' hsettled.settled hdepth hopened).bind fun _ _ hbody => ?_
  refine hbody.modifyScope.bind fun _ _ hleft => (hleft.setLoops fun _ => context.loopDepth).bind fun _ _ hafter => ?_
  have hextends' := hextends.trans (Statement.extends_build hsteady' (.block settled) hgrammatical')
  exact hafter.pure ⟨_, hextends'.extends_leave hsteady, hafter⟩

theorem function_complete {target : Function} (hgrammatical : Statement.AllGrammatical target.body)
    (hadmissible : target.Admissible context.className) (hdepth : target.tailWords.length < depth)
    (h : Awaits context (target.tailWords ++ rest) before) :
    Succeeds (function depth) before fun _ => Passes context [] rest := by
  obtain ⟨hname, hmangled, hnameable, hnodup, hbody⟩ := hadmissible
  simp only [Function.tailWords, cons_append, append_assoc] at h
  have hcount : target.parameters.length ≤ (Function.commaWords target.parameters).length := length_le_flatMap (by simp)
  simp only [Function.tailWords, Statement.words, length_append, length_cons, length_tail] at hdepth
  refine h.consumeName.bind ?_
  rintro _ named ⟨hlast, hnamed⟩
  simp only [parser_liftM]
  rw [succeeds_previous_bind, hlast, intern_of_nameable hname, pure_bind]
  refine (codeName_complete hlast hmangled hnamed).bind fun _ _ hcoded => ?_
  refine (parametersAndBody_complete hsteady hnameable hnodup hgrammatical hbody (by omega) (by omega) hcoded).bind ?_
  rintro _ _ ⟨scope, hextends, hbehind⟩
  exact hbehind.link.bind fun _ _ hlinked => hlinked.alloc fun _ _ hafter => ⟨scope, hextends, hafter⟩

/-! ### Classes -/

theorem method_complete {target : Function} (hgrammatical : Statement.AllGrammatical target.body)
    (hadmissible : target.Admissible context.className) (hdepth : target.words.length < depth)
    (h : Awaits context (target.words ++ rest) before) : Succeeds (method depth) before fun _ => Passes context [] rest := by
  refine h.accept.bind ?_
  rintro _ next ⟨rfl, hnext⟩
  exact .map (function_complete hsteady hgrammatical hadmissible (Nat.lt_of_succ_lt hdepth) hnext)

theorem classDeclaration_complete {methods : List Function}
    (hgrammatical : ∀ method ∈ methods, Statement.AllGrammatical method.body) (hname : Nameable name)
    (hadmissible : ∀ method ∈ methods, method.Admissible (some name)) (hdepth : (methods.flatMap Function.words).length < depth)
    (h : Awaits context (identifier name :: sign .lbrace :: (methods.flatMap Function.words ++ sign .rbrace :: rest))
      before) : Succeeds (classDeclaration depth) before fun _ => Passes context [] rest := by
  have hcount : methods.length ≤ (methods.flatMap Function.words).length := length_le_flatMap (by simp [Function.words])
  -- Some of the methods have been read; they have left the scope as it was.
  let Holds (others : List Function) (_ : List Tree) (state : State) : Prop :=
    others ⊆ methods ∧ (others.flatMap Function.words).length < depth ∧
      Passes { context with className := some name } [] (others.flatMap Function.words ++ sign .rbrace :: rest) state
  refine h.consumeName.bind ?_
  rintro _ named ⟨hlast, hnamed⟩
  simp only [parser_liftM]
  rw [succeeds_previous_bind, hlast, intern_of_nameable hname, pure_bind]
  refine hnamed.consume.bind fun _ opened hopened => ?_
  rw [succeeds_get_bind, show opened.className = context.className from congrArg Context.className hopened.context]
  refine hopened.setClass.bind fun _ inside hinside => ?_
  have hbody : Succeeds (body .methods endsBody (method depth) depth) inside fun trees => Holds [] trees.reverse := by
    refine body_complete Holds ?_ ?_ ?_ (Nat.le_of_lt (Nat.lt_of_le_of_lt hcount hdepth))
      ⟨Subset.refl _, hdepth, hinside.passes⟩
    · rintro _ _ state ⟨-, -, _, -, hstate⟩
      exact hstate.clean
    · rintro _ state ⟨-, -, _, -, hstate⟩
      rw [hstate.kind]
      rfl
    · rintro first others trees state ⟨hsubset, hdepth, scope, hextends, hstate⟩
      obtain ⟨hfirst, hothers⟩ := cons_subset.1 hsubset
      simp only [flatMap_cons, append_assoc, length_append] at hstate hdepth
      refine ⟨by rw [hstate.kind]; rfl, ?_⟩
      refine (@method_complete depth { context with scope, className := some name } _ _ (hextends.steady hsteady) first
        (hgrammatical first hfirst) (hadmissible first hfirst) (by omega) hstate).mono ?_
      rintro _ _ ⟨scope', hextends', hafter⟩
      exact ⟨hothers, by omega, scope', hextends.trans hextends', hafter⟩
  refine hbody.bind ?_
  rintro trees middle ⟨-, -, scope, hextends, hmiddle⟩
  refine hmiddle.setClass.bind fun _ _ hleft => hleft.consume.bind fun _ _ hclosed => hclosed.link.bind fun _ _ hlinked => ?_
  exact hlinked.alloc fun _ _ hafter => ⟨scope, hextends, hafter⟩

/-! ### Programs -/

omit hsteady in
theorem topVariable_complete {var : Variable} (hdeclarable : Declarable context.scope var) (hdepth : var.words.length < depth)
    (h : Awaits context (var.words ++ rest) before) :
    Succeeds (declaration depth) before fun result after =>
      ∃ tree, result = some tree ∧ YieldsVariable context var rest tree after := by
  unfold declaration
  rw [succeeds_get_bind]
  rcases declaration_complete hdeclarable hdepth h with ⟨hkind, hread⟩ | ⟨hkind, hread⟩
  all_goals
    simp only [hkind, ← map_bind]
    exact .map (hread.mono fun tree _ hyields => ⟨tree, rfl, hyields⟩)

theorem topLevel_complete {target : Declaration} (htop : context.scope.depth = 0) (hglobal : context.className = none)
    (hgrammatical : target.Grammatical) (hadmissible : target.Admissible)
    (hfresh : ∀ name ∈ target.global?, name ∉ context.scope.here) (hdepth : target.words.length < depth)
    (h : Awaits context (target.words ++ rest) before) :
    Succeeds (declaration depth) before fun _ => Passes context target.global?.toList rest := by
  cases target with
  | funcDecl target =>
    rw [declaration, succeeds_get_bind, h.kind]
    refine h.skip.bind fun _ next hnext => .map ?_
    exact function_complete hsteady hgrammatical (hglobal ▸ hadmissible) (Nat.lt_of_succ_lt hdepth) hnext
  | classDecl name methods =>
    simp only [Declaration.words, cons_append, append_assoc, nil_append] at h
    simp only [Declaration.words, length_append, length_cons] at hdepth
    rw [declaration, succeeds_get_bind, h.kind]
    refine h.skip.bind fun _ next hnext => .map ?_
    exact classDeclaration_complete hsteady hgrammatical hadmissible.1 hadmissible.2 (by omega) hnext
  | varDecl var =>
    have hdeclarable : Declarable context.scope var :=
      ⟨hsteady, hgrammatical, hadmissible.1, hadmissible.2, fun hnested => absurd htop hnested, hfresh var.name rfl⟩
    refine (topVariable_complete hdeclarable hdepth h).mono ?_
    rintro _ _ ⟨_, -, -, hafter⟩
    exact ⟨_, var.extends_build context.scope, hafter⟩

end

variable {tokens : List Token}

theorem start_complete (htokens : FramedTokens tokens) (hfine : ∀ token ∈ tokens, token.kind ≠ .error)
    {target : Program} (hwords : tokens.map Token.word = target.words ++ [sign .eof]) :
    Succeeds advance (State.initial tokens) fun _ => Awaits ⟨.initial, none, 0⟩ target.words := by
  obtain ⟨hframed, hwords'⟩ := framed_shift_initial htokens
  have hadvance : Reads advance (State.initial tokens) () (State.initial tokens).shift := by
    refine reads_advance.2 ⟨⟨rfl, rfl⟩, ?_, rfl⟩
    unfold State.NextFine
    split
    · rename_i token second others hrest
      exact hfine token (by rw [show tokens = token :: second :: others from hrest]; simp)
    · trivial
  refine ⟨(), _, hadvance, ⟨hframed, append_cancel_right (hwords'.symm.trans hwords), ?_⟩, hadvance.clean_after,
    fun word hword => ?_⟩
  · unfold State.shift
    split <;> rfl
  · obtain ⟨token, htoken, rfl⟩ := mem_map.1 (hwords ▸ mem_append_left _ hword)
    exact hfine token htoken

theorem reads_program_of_body {ahead : List Grammar.Word} {post : List Tree → State → Prop}
    (hstart : Succeeds advance (State.initial tokens) fun _ => Awaits ⟨.initial, none, 0⟩ ahead)
    (hbody : ∀ first, Awaits ⟨.initial, none, 0⟩ ahead first →
      Succeeds (body .declarations (· == .eof) (declaration (depthBound tokens)) (depthBound tokens)) first fun trees after =>
        post trees after ∧ after.Clean) :
    ∃ trees after, Reads (program (depthBound tokens)) (State.initial tokens) trees (after.linked trees) ∧ post trees after := by
  obtain ⟨_, first, hadvance, hfirst⟩ := hstart
  obtain ⟨trees, after, hread, hpost, hclean⟩ := hbody first hfirst
  refine ⟨trees, after, reads_bind.2 ⟨(), first, hadvance, reads_bind.2 ⟨trees, after, hread, ?_⟩⟩, hpost⟩
  exact reads_bind.2 ⟨(), _, reads_link.2 ⟨hclean, rfl⟩, reads_pure.2 ⟨⟨hclean.silent, hclean.calm⟩, rfl, rfl⟩⟩

theorem program_complete (htokens : FramedTokens tokens) (hfine : ∀ token ∈ tokens, token.kind ≠ .error)
    {target : Program} (hwords : tokens.map Token.word = target.words ++ [sign .eof])
    (hgrammatical : target.Grammatical) (hadmissible : target.Admissible) :
    ∃ trees after, Reads (program (depthBound tokens)) (State.initial tokens) trees after := by
  have hlength : target.words.length < depthBound tokens := by
    have hlengths := congrArg length hwords
    simp only [length_map, length_append, length_singleton] at hlengths
    unfold depthBound
    omega
  have hcount : target.length ≤ target.words.length := length_le_flatMap Declaration.words_ne_nil
  -- Some of the declarations have been read, and their variables are in scope.
  let Holds (others : List Declaration) (_ : List Tree) (state : State) : Prop :=
    others ⊆ target ∧ (Program.words others).length < depthBound tokens ∧ ∃ scope : Scope, scope.Steady ∧ scope.depth = 0 ∧
      (others.filterMap Declaration.global?).Nodup ∧ (∀ name ∈ others.filterMap Declaration.global?, name ∉ scope.here) ∧
      Awaits ⟨scope, none, 0⟩ (Program.words others) state
  obtain ⟨trees, after, hreads, -⟩ := reads_program_of_body (start_complete htokens hfine hwords) fun first hfirst => by
    refine (body_complete Holds ?_ ?_ ?_ (by omega) ⟨Subset.refl _, hlength, _, steady_initial, rfl,
      hadmissible.1, by simp [Scope.here, Scope.initial], hfirst⟩).mono fun _ _ ⟨_, _, _, _, _, _, _, hafter⟩ =>
        ⟨trivial, hafter.clean⟩
    · rintro _ _ _ ⟨-, -, _, -, -, -, -, hstate⟩
      exact hstate.clean
    · rintro _ _ ⟨-, -, _, -, -, -, -, hstate⟩
      rw [hstate.kind]
      rfl
    · rintro first others _ state ⟨hsubset, hdepth, scope, hsteady, htop, hnodup, hfresh, hstate⟩
      obtain ⟨hfirst, hothers⟩ := cons_subset.1 hsubset
      have hunread := hstate.unread (by simp [Program.words, first.words_ne_nil])
      rw [filterMap_cons_toList] at hnodup hfresh
      simp only [Program.words, flatMap_cons, length_append] at hstate hdepth
      refine ⟨by simpa using hunread, ?_⟩
      refine (topLevel_complete hsteady htop rfl (hgrammatical first hfirst) (hadmissible.2 first hfirst)
        (fun name hname => hfresh name (mem_append_left _ (by simpa using hname))) (by omega) hstate).mono ?_
      rintro _ _ ⟨scope', hextends, hafter⟩
      obtain ⟨hnodup', hfresh'⟩ := hextends.fresh_tail hnodup hfresh
      exact ⟨hothers, by simp only [Program.words]; omega, scope', hextends.steady hsteady, hextends.depth.trans htop, hnodup',
        hfresh', hafter⟩
  exact ⟨trees, _, hreads⟩

theorem program_variable (htokens : FramedTokens tokens) (hfine : ∀ token ∈ tokens, token.kind ≠ .error)
    {var : Variable} (hwords : tokens.map Token.word = var.words ++ [sign .eof]) (hgrammatical : var.Grammatical)
    (hnameable : Nameable var.name) (hlimits : ∀ phrase ∈ var.initial, phrase.WithinLimits) :
    ∃ tree after, Reads (program (depthBound tokens)) (State.initial tokens) [tree] after ∧
      tree.bare = (var.build .initial).1 := by
  have hwords' : tokens.map Token.word = Program.words [.varDecl var] ++ [sign .eof] := by
    rw [hwords]
    simp [Program.words, Declaration.words]
  have hlength : var.words.length < depthBound tokens := by
    have hlengths := congrArg length hwords
    simp only [length_map, length_append, length_singleton] at hlengths
    unfold depthBound
    omega
  have hdeclarable : Declarable .initial var :=
    ⟨steady_initial, hgrammatical, hnameable, hlimits, fun hnested => absurd rfl hnested,
      by simp [Scope.here, Scope.initial]⟩
  let Holds (others : List Unit) (trees : List Tree) (state : State) : Prop :=
    others = [()] ∧ trees = [] ∧ Awaits ⟨.initial, none, 0⟩ (var.words ++ []) state ∨
      others = [] ∧ ∃ tree, trees = [tree] ∧ YieldsVariable ⟨.initial, none, 0⟩ var [] tree state
  obtain ⟨_, after, hreads, tree, rfl, htree⟩ := @reads_program_of_body _ _
    (fun trees _ => ∃ tree, trees = [tree] ∧ tree.bare = (var.build .initial).1)
    (start_complete htokens hfine hwords') fun first hfirst => by
      refine (@body_complete first Unit _ _ _ Holds ?_ ?_ ?_ [()] _ (Nat.zero_lt_of_lt hlength)
        (.inl ⟨rfl, rfl, hfirst⟩)).mono ?_
      · rintro _ _ _ (⟨-, -, hstate⟩ | ⟨-, _, -, -, hstate⟩) <;> exact hstate.clean
      · rintro _ _ (⟨hnone, -⟩ | ⟨-, _, -, -, hstate⟩)
        · contradiction
        · exact beq_iff_eq.2 hstate.kind
      · rintro _ _ _ state (⟨hone, rfl, hstate⟩ | ⟨hnone, -⟩)
        · have hunread := hstate.unread (append_ne_nil_of_left_ne_nil (Declaration.varDecl var).words_ne_nil [])
          refine ⟨by simpa using hunread, (topVariable_complete hdeclarable hlength hstate).mono ?_⟩
          rintro _ _ ⟨tree, rfl, hyields⟩
          exact .inr ⟨(cons.inj hone).2, tree, rfl, hyields⟩
        · contradiction
      · rintro trees after (⟨hnone, -⟩ | ⟨-, tree, htrees, htree, hafter⟩)
        · contradiction
        · exact ⟨⟨tree, by simpa using htrees, htree⟩, hafter.clean⟩
  exact ⟨tree, _, hreads, htree⟩

end Parser

/-- A text is parsed without a report if and only if it has no lexical error, is a text of the grammar and meets every
condition on names, jumps and sizes. -/
theorem parse_errors_eq_nil_iff (source : String) :
    (parse source).errors = [] ↔
      (∀ token ∈ tokens source, token.kind ≠ .error) ∧ ∃ program : Grammar.Program,
        (tokens source).map Token.word = program.words ++ [Grammar.sign .eof] ∧ program.Grammatical ∧
          program.Admissible := by
  constructor
  · intro hsilent
    obtain ⟨program, hwords, hgrammatical, hadmissible, -⟩ := parse_sound hsilent
    refine ⟨fun token htoken => ?_, program, hwords, hgrammatical, hadmissible⟩
    have hfine : Grammar.Fine (fun _ => True) (program.words ++ [Grammar.sign .eof]) :=
      Grammar.fine_append.2 ⟨(Grammar.Program.fine_words hgrammatical .initial).2 fun _ _ _ _ _ _ _ => trivial, by simp⟩
    exact (hfine token.word (hwords ▸ List.mem_map_of_mem htoken)).1
  · rintro ⟨hfine, program, hwords, hgrammatical, hadmissible⟩
    obtain ⟨trees, after, -, hrun, hclean⟩ :=
      Parser.program_complete (tokens_framed source) hfine hwords hgrammatical hadmissible
    have hafter : ((Parser.program (Parser.depthBound (tokens source)) : Parser _) (Parser.State.initial (tokens source))).2 = after :=
      congrArg Prod.snd hrun
    change ((Parser.program (Parser.depthBound (tokens source)) : Parser _) (Parser.State.initial (tokens source))).2.errors.toList = []
    rw [hafter, hclean.silent]

end NanScript
