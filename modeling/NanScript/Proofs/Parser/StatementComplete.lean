import NanScript.Proofs.Grammar.Else
import NanScript.Proofs.Grammar.Scoping
import NanScript.Proofs.Parser.PhraseComplete

/-!
# Statements are read

Where the text of a statement is ahead, `statement` reads it without a report and stops behind it, in the scope that the
statement leaves, as long as the statement meets the conditions on names and jumps. The statement must be settled: the
parser gives an `else` to the nearest conditional. What trees come of statements follows from what has been read; of a
phrase and of a variable it is said which tree is made.
-/

namespace NanScript.Parser

open Grammar State Statement Variable List

variable {depth : Nat} {context : Context} {before : State} {rest : List Grammar.Word}

/-! ### Phrases -/

variable {phrase : Phrase}

/-- Between two statements every name can be used. -/
theorem Context.Inside.sayable (h : context.Inside) (hgrammatical : phrase.Grammatical) (hlimits : phrase.WithinLimits)
    : Sayable context.scope phrase :=
  ⟨hgrammatical, hlimits, fun name _ => h.steady.isUninitialized name⟩

theorem Context.Inside.sayableOption (h : context.Inside) {phrase : Option Phrase}
    (hgrammatical : ∀ given ∈ phrase, given.Grammatical) (hlimits : ∀ given ∈ phrase, given.WithinLimits) :
    ∀ given ∈ phrase, Sayable context.scope given := fun given hgiven =>
  h.sayable (hgrammatical given hgiven) (hlimits given hgiven)

variable {ends : TokenKind}

theorem expression_complete (hsayable : Sayable context.scope phrase) (hdepth : phrase.words.length < depth)
    (hoperator : Operator.ofToken? ends = none) (hassignment : assignmentOp? ends = none)
    (h : Awaits context (phrase.words ++ sign ends :: rest) before) :
    Succeeds (expression depth) before (Yields context phrase (sign ends :: rest)) := by
  unfold expression
  exact (complete depth phrase hdepth).loosest hsayable (follows_of_kind hoperator hassignment _ rfl) h

theorem optionalExpression_complete {phrase : Option Phrase} (hsayable : ∀ given ∈ phrase, Sayable context.scope given)
    (hdepth : (optionWords [] phrase).length < depth) (hoperator : Operator.ofToken? ends = none)
    (hassignment : assignmentOp? ends = none) (hstart : ends.startsPhrase = false)
    (h : Awaits context (optionWords [] phrase ++ sign ends :: rest) before) :
    Succeeds (optionalExpression depth ends) before fun _ => Awaits context (sign ends :: rest) := by
  unfold optionalExpression
  rw [parser_liftM, succeeds_check_bind, h.check]
  cases phrase with
  | none =>
    rw [if_pos (by simp [optionWords])]
    exact h.pure h
  | some given =>
    have hother : headKind (given.words ++ sign ends :: rest) ≠ ends := by
      have hstarts := given.startsPhrase_headKind (sign ends :: rest)
      intro hkind
      rw [hkind, hstart] at hstarts
      contradiction
    rw [if_neg (by simpa [optionWords] using hother)]
    exact .map ((expression_complete (hsayable given rfl) hdepth hoperator hassignment h).mono fun _ _ => And.right)

theorem behind_complete {kind : TokenKind} {phrase : Option Phrase}
    (hsayable : ∀ given ∈ phrase, Sayable context.scope given)
    (hdepth : (optionWords [sign kind] phrase).length < depth) (hoperator : Operator.ofToken? ends = none)
    (hassignment : assignmentOp? ends = none) (hother : ends ≠ kind)
    (h : Awaits context (optionWords [sign kind] phrase ++ sign ends :: rest) before) :
    Succeeds (behind kind (expression depth)) before fun tree after =>
      tree.map Tree.bare = phrase.map (Phrase.tree context.scope) ∧ Awaits context (sign ends :: rest) after := by
  unfold behind
  cases phrase with
  | none =>
    refine (h.reject hother).bind ?_
    rintro _ after ⟨rfl, hafter⟩
    exact hafter.pure ⟨rfl, hafter⟩
  | some given =>
    simp only [optionWords, cons_append, nil_append, length_cons] at h hdepth
    refine h.accept.bind ?_
    rintro _ next ⟨rfl, hnext⟩
    have hread := expression_complete (hsayable given rfl) (Nat.lt_of_succ_lt hdepth) hoperator hassignment hnext
    refine .map (hread.mono ?_)
    rintro _ _ ⟨htree, hafter⟩
    exact ⟨congrArg some htree, hafter⟩

/-! ### Variables -/

theorem Awaits.declarePrevious {name : String} (h : Awaits context rest before) (hprevious : before.previous.lexeme = name)
    (hname : Nameable name) (hfresh : name ∉ context.scope.here) :
    Succeeds declarePrevious before fun declared after => declared = (name, context.scope.nextSymbol) ∧
      Awaits { context with scope := context.scope.declare name } rest after := by
  obtain ⟨⟨hframed, hwords, rfl⟩, hclean, hfine⟩ := h
  subst hprevious
  exact ⟨_, _, reads_declarePrevious.2 ⟨hclean, hname, Scope.declaredHere?_eq_none.2 hfresh, rfl, rfl⟩, rfl,
    ⟨hframed, hwords, rfl⟩, ⟨hclean.silent, hclean.calm⟩, hfine⟩

/-- Nothing stands against the declaration of a variable in a scope. -/
structure Declarable (scope : Scope) (var : Variable) : Prop where
  steady : scope.Steady
  grammatical : var.Grammatical
  nameable : Nameable var.name
  limits : ∀ phrase ∈ var.initial, phrase.WithinLimits
  unmentioned : scope.depth ≠ 0 → ∀ phrase ∈ var.initial, var.name ∉ phrase.names
  fresh : var.name ∉ scope.here

/-- The tree of a variable has been made, and the variable is in scope. -/
def YieldsVariable (context : Context) (var : Variable) (rest : List Grammar.Word) (tree : Tree) (after : State) : Prop :=
  tree.bare = (var.build context.scope).1 ∧ Awaits { context with scope := (var.build context.scope).2 } rest after

theorem varDeclaration_complete {var : Variable} (hdeclarable : Declarable context.scope var)
    (hdepth : var.tailWords.length < depth) (h : Awaits context (var.tailWords ++ rest) before) :
    Succeeds (varDeclaration depth var.managed) before (YieldsVariable context var rest) := by
  simp only [tailWords, cons_append, append_assoc, nil_append] at h
  simp only [tailWords, length_append, length_cons] at hdepth
  have hsayable : ∀ given ∈ var.initial, Sayable (context.scope.declare var.name) given := by
    refine fun given hgiven =>
      ⟨hdeclarable.grammatical given hgiven, hdeclarable.limits given hgiven, fun name hmention => ?_⟩
    rw [hdeclarable.steady.isUninitialized_declare]
    simp only [Bool.and_eq_false_imp, bne_iff_ne, ne_eq, beq_eq_false_iff_ne]
    rintro hnested rfl
    exact hdeclarable.unmentioned hnested given hgiven hmention
  refine h.consumeName.bind ?_
  rintro _ named ⟨hname, hnamed⟩
  refine (hnamed.declarePrevious hname hdeclarable.nameable hdeclarable.fresh).bind ?_
  rintro _ declared ⟨rfl, hdeclared⟩
  refine (behind_complete hsayable (by omega) rfl rfl (by decide) hdeclared).bind ?_
  rintro initial middle ⟨hinitial, hmiddle⟩
  refine hmiddle.modifyScope.bind fun _ marked hmarked => hmarked.consume.bind fun _ closed hclosed => ?_
  exact hclosed.alloc fun _ _ hafter => ⟨by simp [Variable.build, hinitial], hafter⟩

theorem declaration_complete {var : Variable} (hdeclarable : Declarable context.scope var)
    (hdepth : var.words.length < depth) (h : Awaits context (var.words ++ rest) before) :
    before.current.kind = .kwVar ∧ Succeeds (advance >>= fun _ => varDeclaration depth false) before
        (YieldsVariable context var rest) ∨
      before.current.kind = .kwManaged ∧ Succeeds (advance >>= fun _ => managedDeclaration depth) before
        (YieldsVariable context var rest) := by
  cases hmanaged : var.managed with
  | false =>
    simp only [Variable.words, hmanaged, Bool.false_eq_true, if_false, cons_append, length_cons] at h hdepth
    refine .inl ⟨h.kind, h.skip.bind fun _ next hnext => ?_⟩
    exact hmanaged ▸ varDeclaration_complete hdeclarable (Nat.lt_of_succ_lt hdepth) hnext
  | true =>
    simp only [Variable.words, hmanaged, if_true, cons_append, length_cons] at h hdepth
    refine .inr ⟨h.kind, h.skip.bind fun _ next hnext => hnext.consume.bind fun _ named hnamed => ?_⟩
    exact hmanaged ▸ varDeclaration_complete hdeclarable (by omega) hnamed

/-! ### How statements begin -/

/-- Whether a statement other than a declaration can begin with a word of this kind. -/
def startsStatement : TokenKind → Bool
  | .kwIf | .kwWhile | .kwFor | .kwReturn | .kwBreak | .kwContinue | .lbrace => true
  | kind => kind.startsPhrase

theorem startsStatement_headKind {statement : Statement} (hplain : statement.IsPlain) (rest : List Grammar.Word) :
    startsStatement (headKind (statement.words ++ rest)) = true := by
  cases statement with
  | declaration var => exact hplain.elim
  | expression phrase =>
    have hstarts := phrase.startsPhrase_headKind ([sign .semicolon] ++ rest)
    rw [Statement.words, append_assoc]
    revert hstarts
    cases headKind (phrase.words ++ ([sign .semicolon] ++ rest)) <;> decide
  | _ => rfl

/-- What cannot follow the opening brace of a block is not the beginning of a statement. -/
theorem headKind_member_ne (statement : Statement) (rest : List Grammar.Word) :
    headKind (statement.words ++ rest) ≠ .kwElse ∧ endsBody (headKind (statement.words ++ rest)) = false := by
  by_cases hplain : statement.IsPlain
  · have hstarts := startsStatement_headKind hplain rest
    revert hstarts
    cases headKind (statement.words ++ rest) <;> simp [startsStatement, TokenKind.startsPhrase, endsBody]
  · cases statement with
    | declaration var => cases hmanaged : var.managed <;> simp [Variable.words, hmanaged, endsBody]
    | _ => exact absurd trivial hplain

theorem length_le_allWords (statements : List Statement) : statements.length ≤ (allWords statements).length := by
  induction statements with
  | nil => exact Nat.zero_le _
  | cons statement others ih =>
    have hnonempty : statement.words ≠ [] := by
      intro hempty
      have hgoes := (headKind_member_ne statement []).2
      rw [hempty] at hgoes
      contradiction
    have hlength := length_pos_iff.2 hnonempty
    simp only [allWords, length_append, length_cons]
    omega

/-! ### Bodies -/

/-- The members of a body are read one after the other. `Holds` is the invariant: so many members are still to come, and
these trees have been made, the last in front. -/
theorem body_complete {ι : Type} {round : Activity} {ends : TokenKind → Bool} {member : Parser (Option Tree)}
    (Holds : List ι → List Tree → State → Prop) (hclean : ∀ {items trees state}, Holds items trees state → state.Clean)
    (hends : ∀ {trees state}, Holds [] trees state → ends state.current.kind = true)
    (hstep : ∀ {item items trees state}, Holds (item :: items) trees state → ends state.current.kind = false ∧
      Succeeds member state fun made => Holds items (made.toList ++ trees)) {items : List ι} {steps : Nat}
    (hsteps : items.length ≤ steps) (h : Holds items [] before) :
    Succeeds (body round ends member steps) before fun trees => Holds [] trees.reverse := by
  have hback : ∀ (trees : List Tree) {before : State}, Holds items trees before →
      Succeeds (bodyBackward round ends member steps trees) before (Holds []) := by
    clear h
    induction items generalizing steps with
    | nil =>
      intro trees before h
      cases steps with
      | zero => exact ⟨_, _, reads_pure.2 ⟨hclean h, rfl, rfl⟩, h⟩
      | succ steps =>
        rw [bodyBackward, parser_enter, succeeds_get_bind, if_pos (hends h)]
        exact ⟨_, _, reads_pure.2 ⟨hclean h, rfl, rfl⟩, h⟩
    | cons item items ih =>
      intro trees before h
      obtain ⟨hgoes, hmember⟩ := hstep h
      obtain ⟨steps, rfl⟩ := Nat.exists_eq_add_one_of_ne_zero (Nat.ne_of_gt (Nat.zero_lt_of_lt hsteps))
      rw [bodyBackward, parser_enter, succeeds_get_bind, if_neg (by simp [hgoes])]
      refine hmember.bind fun made after hafter => ?_
      have hrecover : Succeeds recover after fun _ last => last = after :=
        ⟨(), after, reads_recover.2 ⟨hclean hafter, rfl⟩, rfl⟩
      refine hrecover.bind ?_
      rintro _ _ rfl
      exact ih (Nat.le_of_succ_le_succ hsteps) _ hafter
  refine (hback [] h).bind fun trees after hafter => ?_
  exact ⟨_, _, reads_pure.2 ⟨hclean hafter, rfl, rfl⟩, by simpa using hafter⟩

/-! ### Statements -/

/-- Nothing stands against a statement in a context. -/
structure Tellable (context : Context) (statement : Statement) : Prop where
  inside : context.Inside
  grammatical : statement.Grammatical
  admissible : statement.Admissible context.inLoop
  settled : statement.Settled

/-- Where the parser is behind a statement. -/
def Context.past (context : Context) (statement : Statement) : Context :=
  { context with scope := (statement.build context.scope).2 }

theorem Context.Inside.of_extends (h : context.Inside) {names : List String} {scope : Scope}
    (hextends : Scope.Extends context.scope names scope) : Context.Inside { context with scope } :=
  ⟨hextends.steady h.steady, hextends.depth ▸ h.nested⟩

theorem Context.Inside.past (h : context.Inside) {statement : Statement} (hgrammatical : statement.Grammatical) :
    (context.past statement).Inside :=
  h.of_extends (extends_build h.steady statement hgrammatical)

/-- Wherever the text of a statement is ahead, it is read as far as it goes, if there is depth enough for its words. -/
def NestedComplete (nested : Parser Tree) (bound : Nat) : Prop :=
  ∀ {statement : Statement} {context : Context} {before : State} {rest : List Grammar.Word}, Tellable context statement →
    statement.IsPlain → statement.words.length < bound → (statement.endsOpen = true → headKind rest ≠ .kwElse) →
    Awaits context (statement.words ++ rest) before → Succeeds nested before fun _ => Awaits (context.past statement) rest

theorem expressionStatement_complete (hsayable : Sayable context.scope phrase) (hdepth : phrase.words.length < depth)
    (h : Awaits context (phrase.words ++ sign .semicolon :: rest) before) :
    Succeeds (expressionStatement depth) before fun _ => Awaits context rest := by
  refine (expression_complete hsayable hdepth rfl rfl h).bind fun tree middle ⟨_, hmiddle⟩ => ?_
  exact hmiddle.consume.bind fun _ _ hafter => hafter.pure hafter

theorem returnStatement_complete {value : Option Phrase} (hsayable : ∀ given ∈ value, Sayable context.scope given)
    (hdepth : (optionWords [] value).length < depth)
    (h : Awaits context (optionWords [] value ++ sign .semicolon :: rest) before) :
    Succeeds (returnStatement depth) before fun _ => Awaits context rest := by
  refine (optionalExpression_complete hsayable hdepth rfl rfl rfl h).bind fun tree middle hmiddle => ?_
  exact hmiddle.consume.bind fun _ _ hclosed => hclosed.alloc fun _ _ => id

theorem loopJump_complete {make : Note → Tree} (hloop : context.inLoop = true)
    (h : Awaits context (sign .semicolon :: rest) before) :
    Succeeds (loopJump make) before fun _ => Awaits context rest := by
  have hinside : ¬ (before.loopDepth == 0) = true := by
    rw [show before.loopDepth = context.loopDepth from congrArg Context.loopDepth h.context]
    simpa [Context.inLoop, bne] using hloop
  unfold loopJump
  rw [succeeds_previous_bind, succeeds_get_bind]
  simp only [hinside]
  exact h.consume.bind fun _ _ hclosed => hclosed.alloc fun _ _ => id

section

variable {nested : Parser Tree}

/-! ### Blocks -/

variable {statement : Statement}

section

variable (hnested : NestedComplete nested depth)

include hnested

theorem blockMember_complete (htellable : Tellable context statement)
    (hfresh : ∀ name ∈ statement.declared?, name ∉ context.scope.here) (hdepth : statement.words.length < depth)
    (hclosed : headKind rest ≠ .kwElse) (h : Awaits context (statement.words ++ rest) before) :
    Succeeds (blockMember nested depth) before fun _ => Awaits (context.past statement) rest := by
  unfold blockMember
  rw [succeeds_get_bind]
  by_cases hplain : statement.IsPlain
  · have hstarts := startsStatement_headKind hplain rest
    rw [← h.kind] at hstarts
    split <;> rename_i hkind
    iterate 4
      rw [hkind] at hstarts
      contradiction
    exact .map (hnested htellable hplain hdepth (fun _ => hclosed) h)
  · cases statement with
    | declaration var =>
      obtain ⟨hnameable, hinitial⟩ := htellable.admissible
      have hdeclarable : Declarable context.scope var :=
        ⟨htellable.inside.steady, htellable.grammatical, hnameable, fun phrase hphrase => (hinitial phrase hphrase).1,
          fun _ phrase hphrase => (hinitial phrase hphrase).2, hfresh var.name rfl⟩
      rcases declaration_complete hdeclarable hdepth h with ⟨hkind, hread⟩ | ⟨hkind, hread⟩
      all_goals
        simp only [hkind, ← map_bind]
        exact .map (hread.mono fun _ _ => And.right)
    | _ => exact absurd trivial hplain

/-- Nothing stands against the members of a block. -/
structure TellableAll (context : Context) (statements : List Statement) : Prop where
  inside : context.Inside
  grammatical : AllGrammatical statements
  admissible : AllAdmissible context.inLoop statements
  settled : AllSettled statements
  nodup : (statements.filterMap declared?).Nodup
  fresh : ∀ name ∈ statements.filterMap declared?, name ∉ context.scope.here

omit hnested in
theorem TellableAll.head {others : List Statement} (h : TellableAll context (statement :: others)) :
    Tellable context statement ∧ ∀ name ∈ statement.declared?, name ∉ context.scope.here :=
  ⟨⟨h.inside, h.grammatical.1, h.admissible.1, h.settled.1⟩, fun name hname =>
    h.fresh name (mem_filterMap.2 ⟨statement, by simp, hname⟩)⟩

omit hnested in
theorem TellableAll.tail {others : List Statement} (h : TellableAll context (statement :: others)) :
    TellableAll (context.past statement) others := by
  have hextends := extends_build h.inside.steady statement h.grammatical.1
  obtain ⟨hnodup, hfresh⟩ := hextends.fresh_tail (filterMap_cons_toList .. ▸ h.nodup) (filterMap_cons_toList .. ▸ h.fresh)
  exact ⟨h.inside.past h.grammatical.1, h.grammatical.2, h.admissible.2, h.settled.2, hnodup, hfresh⟩

theorem block_complete {members : List Statement} (hsteady : context.scope.Steady)
    (hgrammatical : Statement.AllGrammatical members) (hadmissible : (Statement.block members).Admissible context.inLoop)
    (hsettled : AllSettled members) (hdepth : (allWords members).length < depth)
    (h : Awaits context (allWords members ++ sign .rbrace :: rest) before) :
    Succeeds (block nested depth) before fun _ => Awaits (context.past (.block members)) rest := by
  obtain ⟨hnodup, hadmissible⟩ := hadmissible
  have htellable : TellableAll { context with scope := context.scope.enter } members :=
    ⟨⟨hsteady.enter, by simp⟩, hgrammatical, hadmissible, hsettled, hnodup, by simp [hsteady.here_enter]⟩
  have hcount := length_le_allWords members
  -- Some of the members have been read, and the scope behind all of them is known.
  let Holds (others : List Statement) (_ : List Tree) (state : State) : Prop :=
    ∃ scope, TellableAll { context with scope } others ∧ (allWords others).length < depth ∧
      (buildAll scope others).2 = (buildAll context.scope.enter members).2 ∧
      Awaits { context with scope } (allWords others ++ sign .rbrace :: rest) state
  refine h.modifyScope.bind fun _ entered hentered => ?_
  have hbody : Succeeds (body .members endsBody (blockMember nested depth) depth) entered fun trees => Holds [] trees.reverse := by
    refine body_complete Holds ?_ ?_ ?_ (Nat.le_of_lt (Nat.lt_of_le_of_lt hcount hdepth))
      ⟨_, htellable, hdepth, rfl, hentered⟩
    · rintro _ _ state ⟨_, -, -, -, hstate⟩
      exact hstate.clean
    · rintro _ state ⟨_, -, -, -, hstate⟩
      rw [hstate.kind]
      rfl
    · rintro statement others trees state ⟨scope, htellable, hdepth, hbuild, hstate⟩
      simp only [allWords, append_assoc, length_append] at hstate hdepth
      have hclosed : headKind (allWords others ++ sign .rbrace :: rest) ≠ .kwElse := by
        cases others with
        | nil => simp [allWords]
        | cons second more =>
          rw [allWords, append_assoc]
          exact (headKind_member_ne second _).1
      refine ⟨?_, (blockMember_complete hnested htellable.head.1 htellable.head.2 (by omega) hclosed hstate).mono ?_⟩
      · rw [hstate.kind]
        exact (headKind_member_ne statement _).2
      · exact fun _ after hafter => ⟨(statement.build scope).2, htellable.tail, by omega, hbuild, hafter⟩
  refine hbody.bind ?_
  rintro trees middle ⟨scope, -, -, rfl, hmiddle⟩
  refine hmiddle.consume.bind fun _ _ hclosed => hclosed.modifyScope.bind fun _ _ hleft => hleft.link.bind fun _ _ hlinked => ?_
  exact hlinked.alloc fun _ _ => id

/-! ### Statements with statements in them -/

theorem ifStatement_complete {condition : Phrase} {positive : Statement} {negative : Option Statement}
    (htellable : Tellable context (.ifElse condition positive negative))
    (hdepth : (ifElse condition positive negative).words.length ≤ depth)
    (hclosed : (ifElse condition positive negative).endsOpen = true → headKind rest ≠ .kwElse)
    (h : Awaits context (sign .lparen :: (condition.words ++ sign .rparen ::
      (positive.words ++ (elseWords negative ++ rest)))) before) :
    Succeeds (ifStatement nested depth) before fun _ => Awaits (context.past (.ifElse condition positive negative)) rest := by
  obtain ⟨hcondition, ⟨hplain, hpositive⟩, hnegative⟩ := htellable.grammatical
  obtain ⟨hlimits, hadmissible, hadmissible'⟩ := htellable.admissible
  obtain ⟨hsettled, hsettledElse, hsettled'⟩ := htellable.settled
  have hinside' := htellable.inside.past hpositive
  simp only [Statement.words, length_append, length_cons] at hdepth
  refine h.consume.bind fun _ opened hopened => ?_
  refine (expression_complete (htellable.inside.sayable hcondition hlimits) (by omega) rfl rfl hopened).bind ?_
  rintro conditionTree middle ⟨-, hmiddle⟩
  refine hmiddle.consume.bind fun _ front hfront => ?_
  refine (hnested ⟨htellable.inside, hpositive, hadmissible, hsettled⟩ hplain (by omega) (fun hopen => ?_) hfront).bind
    fun positiveTree next hnext => ?_
  · cases negative with
    | none => exact hclosed rfl
    | some statement => exact absurd (hsettledElse rfl) (by simp [hopen])
  · have helse : Succeeds (behind .kwElse nested) next fun _ =>
        Awaits (context.past (.ifElse condition positive negative)) rest := by
      unfold behind
      cases negative with
      | none =>
        refine (hnext.reject (hclosed rfl)).bind ?_
        rintro _ after ⟨rfl, hafter⟩
        exact hafter.pure hafter
      | some statement =>
        refine hnext.accept.bind ?_
        rintro _ behind ⟨rfl, hbehind⟩
        simp only [elseWords, length_cons] at hdepth
        have htellable' : Tellable (context.past positive) statement := ⟨hinside', hnegative.2, hadmissible', hsettled'⟩
        have hread := hnested htellable' hnegative.1 (by omega) hclosed hbehind
        exact .map hread
    exact helse.bind fun _ _ hlast => hlast.alloc fun _ _ => id

theorem loopBody_complete (hinside : context.Inside) (hgrammatical : statement.Grammatical)
    (hadmissible : statement.Admissible true) (hsettled : statement.Settled) (hplain : statement.IsPlain)
    (hdepth : statement.words.length < depth) (hclosed : statement.endsOpen = true → headKind rest ≠ .kwElse)
    (h : Awaits context (statement.words ++ rest) before) :
    Succeeds (loopBody nested) before fun _ => Awaits (context.past statement) rest := by
  have htellable : Tellable { context with loopDepth := context.loopDepth + 1 } statement :=
    ⟨⟨hinside.steady, hinside.nested⟩, hgrammatical, hadmissible, hsettled⟩
  refine (h.setLoops (· + 1)).bind fun _ inner hinner => ?_
  have hread := hnested htellable hplain hdepth hclosed hinner
  refine hread.bind fun tree middle hmiddle => ?_
  exact (hmiddle.setLoops (· - 1)).bind fun _ _ hafter => hafter.pure hafter

theorem whileStatement_complete {condition : Phrase} {body : Statement}
    (htellable : Tellable context (.whileLoop condition body))
    (hdepth : (whileLoop condition body).words.length ≤ depth)
    (hclosed : body.endsOpen = true → headKind rest ≠ .kwElse)
    (h : Awaits context (sign .lparen :: (condition.words ++ sign .rparen :: (body.words ++ rest))) before) :
    Succeeds (whileStatement nested depth) before fun _ => Awaits (context.past (.whileLoop condition body)) rest := by
  obtain ⟨hcondition, hplain, hbody⟩ := htellable.grammatical
  obtain ⟨hlimits, hadmissible⟩ := htellable.admissible
  simp only [Statement.words, length_append, length_cons] at hdepth
  refine h.consume.bind fun _ opened hopened => ?_
  refine (expression_complete (htellable.inside.sayable hcondition hlimits) (by omega) rfl rfl hopened).bind ?_
  rintro conditionTree middle ⟨-, hmiddle⟩
  refine hmiddle.consume.bind fun _ front hfront => ?_
  refine (loopBody_complete hnested htellable.inside hbody hadmissible htellable.settled hplain (by omega) hclosed hfront).bind
    fun _ _ hlast => hlast.alloc fun _ _ => id

omit hnested in
theorem forInitial_complete {initial : ForInitial} (hinside : context.Inside) (hnew : context.scope.here = [])
    (hgrammatical : initial.Grammatical) (hadmissible : initial.Admissible) (hdepth : initial.words.length < depth)
    (h : Awaits context (initial.words ++ rest) before) :
    Succeeds (forInitial depth) before fun _ => Awaits { context with scope := (initial.build context.scope).2 } rest := by
  unfold forInitial
  cases initial with
  | nothing =>
    refine h.accept.bind ?_
    rintro _ after ⟨rfl, hafter⟩
    exact hafter.pure hafter
  | var name initial =>
    have hdeclarable : Declarable context.scope ⟨false, name, initial⟩ :=
      ⟨hinside.steady, hgrammatical, hadmissible.1, fun phrase hphrase => (hadmissible.2 phrase hphrase).1,
        fun _ phrase hphrase => (hadmissible.2 phrase hphrase).2, by simp [hnew]⟩
    refine (h.reject (show _ ≠ _ by simp [ForInitial.words, Variable.words])).bind ?_
    rintro _ first ⟨rfl, hfirst⟩
    refine hfirst.accept.bind ?_
    rintro _ next ⟨rfl, hnext⟩
    exact .map ((varDeclaration_complete hdeclarable (Nat.lt_of_succ_lt hdepth) hnext).mono fun _ _ => And.right)
  | expression phrase =>
    simp only [ForInitial.words, append_assoc, cons_append, nil_append, length_append] at h hdepth
    have hstarts := phrase.startsPhrase_headKind (sign .semicolon :: rest)
    refine (h.reject (fun hkind => by rw [hkind] at hstarts; contradiction)).bind ?_
    rintro _ first ⟨rfl, hfirst⟩
    refine (hfirst.reject (fun hkind => by rw [hkind] at hstarts; contradiction)).bind ?_
    rintro _ second ⟨rfl, hsecond⟩
    exact .map (expressionStatement_complete (hinside.sayable hgrammatical hadmissible) (by omega) hsecond)

omit hnested in
theorem forCondition_complete {condition : Option Phrase} (hsayable : ∀ given ∈ condition, Sayable context.scope given)
    (hdepth : (optionWords [] condition).length < depth)
    (h : Awaits context (optionWords [] condition ++ sign .semicolon :: rest) before) :
    Succeeds (forCondition depth) before fun _ => Awaits context (sign .semicolon :: rest) := by
  refine (optionalExpression_complete hsayable hdepth rfl rfl rfl h).bind fun tree middle hmiddle => ?_
  cases tree with
  | none => exact hmiddle.alloc fun _ _ => id
  | some tree => exact hmiddle.pure hmiddle

theorem forStatement_complete {initial : ForInitial} {condition step : Option Phrase} {body : Statement}
    (htellable : Tellable context (.forLoop initial condition step body))
    (hdepth : (forLoop initial condition step body).words.length ≤ depth)
    (hclosed : body.endsOpen = true → headKind rest ≠ .kwElse)
    (h : Awaits context (sign .lparen :: (initial.words ++ (optionWords [] condition ++ sign .semicolon ::
      (optionWords [] step ++ sign .rparen :: (body.words ++ rest))))) before) :
    Succeeds (forStatement nested depth) before fun _ =>
      Awaits (context.past (.forLoop initial condition step body)) rest := by
  obtain ⟨hinitial, hcondition, hstep, hplain, hbody⟩ := htellable.grammatical
  obtain ⟨hadmissible₁, hlimits₂, hlimits₃, hadmissible₄⟩ := htellable.admissible
  have hsteady := htellable.inside.steady
  have hinside : Context.Inside { context with scope := context.scope.enter } := ⟨hsteady.enter, by simp⟩
  have hinside' := hinside.of_extends (initial.extends_build context.scope.enter)
  simp only [Statement.words, length_append, length_cons] at hdepth
  refine h.modifyScope.bind fun _ _ hentered => hentered.consume.bind fun _ _ hopened => ?_
  refine (forInitial_complete hinside hsteady.here_enter hinitial hadmissible₁ (by omega) hopened).bind fun _ _ hfirst => ?_
  refine (forCondition_complete (hinside'.sayableOption hcondition hlimits₂) (by omega) hfirst).bind fun _ _ hsecond => ?_
  refine hsecond.consume.bind fun _ _ hthird => ?_
  refine (optionalExpression_complete (hinside'.sayableOption hstep hlimits₃) (by omega) rfl rfl rfl hthird).bind
    fun _ _ hfourth => hfourth.consume.bind fun _ _ hfifth => ?_
  refine (loopBody_complete hnested hinside' hbody hadmissible₄ htellable.settled hplain (by omega) hclosed hfifth).bind
    fun _ _ hsixth => hsixth.modifyScope.bind fun _ _ hleft => ?_
  refine hleft.node.bind ?_
  rintro _ _ ⟨-, hlast⟩
  exact hlast.link.bind fun _ _ hlinked => hlinked.alloc fun _ _ => id

end

end

theorem Awaits.keyword {kind : TokenKind} {reader : Parser Tree} {post : Tree → State → Prop}
    (hreader : keywordStatement? (statement depth) depth kind = some reader) (h : Awaits context (sign kind :: rest) before)
    (hreads : ∀ next, Awaits context rest next → Succeeds reader next post) :
    Succeeds (statement (depth + 1)) before post := by
  rw [statement, parser_enter, succeeds_get_bind, h.kind, headKind_cons, kind_sign, hreader]
  exact h.skip.bind fun _ => hreads

/-- Every settled statement is read wherever its text is ahead. -/
theorem statement_complete (depth : Nat) : NestedComplete (statement depth) depth := by
  induction depth with
  | zero =>
    intro _ _ _ _ _ _ hdepth
    omega
  | succ depth ih =>
    intro target context before rest htellable hplain hdepth hclosed h
    have hinside := htellable.inside
    have hdepth' := Nat.le_of_lt_succ hdepth
    cases target <;>
      simp only [Statement.words, cons_append, append_assoc, nil_append] at h
    case expression phrase =>
      simp only [Statement.words, length_append, length_cons] at hdepth
      have hnone : keywordStatement? (statement depth : Parser Tree) depth before.current.kind = none := by
        have hstarts := phrase.startsPhrase_headKind (sign .semicolon :: rest)
        rw [h.kind]
        revert hstarts
        cases headKind (phrase.words ++ sign .semicolon :: rest) <;> simp [keywordStatement?, TokenKind.startsPhrase]
      rw [statement, parser_enter, succeeds_get_bind, hnone]
      exact expressionStatement_complete (hinside.sayable htellable.grammatical htellable.admissible) (by omega) h
    case declaration => exact hplain.elim
    case ifElse => exact h.keyword rfl fun _ => ifStatement_complete ih htellable hdepth' hclosed
    case whileLoop => exact h.keyword rfl fun _ => whileStatement_complete ih htellable hdepth' hclosed
    case forLoop => exact h.keyword rfl fun _ => forStatement_complete ih htellable hdepth' hclosed
    case ret value =>
      simp only [Statement.words, length_append, length_cons] at hdepth
      exact h.keyword rfl fun _ =>
        returnStatement_complete (hinside.sayableOption htellable.grammatical htellable.admissible) (by omega)
    case breakLoop => exact h.keyword rfl fun _ => loopJump_complete htellable.admissible
    case continueLoop => exact h.keyword rfl fun _ => loopJump_complete htellable.admissible
    case block members =>
      simp only [Statement.words, length_append, length_cons] at hdepth
      exact h.keyword rfl fun _ => block_complete ih hinside.steady htellable.grammatical htellable.admissible
        htellable.settled (by omega)

end NanScript.Parser
