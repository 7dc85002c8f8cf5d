import NanScript.Proofs.Grammar.Scoping
import NanScript.Proofs.Parser.PhraseSound

/-!
# Statements that are read are statements of the grammar

Whatever `statement` reads without a report is the text of a statement of the grammar that meets every condition on
names and jumps, and the tree and the scope behind it are those of the statement. As with expressions, the readers of the
single forms are treated for any reader of nested statements of which the same is known.
-/

namespace NanScript.Parser

open Grammar State Statement List

set_option synthInstance.maxSize 1000

/-- The same place in another scope. -/
abbrev Context.within (context : Context) (scope : Scope) : Context := { context with scope }

/-- The tree of a variable declaration that keeps to all rules. Only a local variable may not be mentioned in its own
initial value. -/
structure Declared (scope : Scope) (var : Variable) (tree : Tree) : Prop where
  tree : tree.bare = (var.build scope).1
  grammatical : var.Grammatical
  nameable : Nameable var.name
  limits : ∀ phrase ∈ var.initial, phrase.WithinLimits
  unmentioned : scope.depth ≠ 0 → ∀ phrase ∈ var.initial, var.name ∉ phrase.names
  fresh : var.name ∉ scope.here

/-- The tree of a statement that keeps to all rules, in a loop or not. -/
structure Told (scope : Scope) (inLoop : Bool) (statement : Statement) (tree : Tree) : Prop where
  tree : tree.bare = (statement.build scope).1
  grammatical : statement.Grammatical
  admissible : statement.Admissible inLoop
  fresh : ∀ name ∈ statement.declared?, name ∉ scope.here

/-- The trees of the members of a block. -/
structure ToldAll (scope : Scope) (inLoop : Bool) (statements : List Statement) (trees : List Tree) : Prop where
  trees : trees.map Tree.bare = (buildAll scope statements).1
  grammatical : AllGrammatical statements
  admissible : AllAdmissible inLoop statements
  nodup : (statements.filterMap declared?).Nodup
  fresh : ∀ name ∈ statements.filterMap declared?, name ∉ scope.here

/-- Words begin with a plain statement whose tree has been made, and the parser stands behind it. -/
def Stated (context : Context) (inLoop : Bool) (words : List Grammar.Word) (tree : Tree) (after : State) : Prop :=
  ∃ statement rest, words = statement.words ++ rest ∧ Stands (context.within (statement.build context.scope).2) rest after ∧
    Told context.scope inLoop statement tree ∧ statement.IsPlain

/-- A reader of nested statements reads statements, as long as there is depth enough for the words ahead. -/
def NestedSound (nested : Parser Tree) (bound : Nat) : Prop :=
  ∀ {context : Context} {ahead : List Grammar.Word} {before after : State} {tree : Tree}, context.Inside →
    Stands context ahead before → ahead.length + 1 < bound → Reads nested before tree after →
    Stated context context.inLoop ahead tree after

theorem Told.inside {context : Context} {inLoop : Bool} {statement : Statement} {tree : Tree}
    (htold : Told context.scope inLoop statement tree) (hinside : context.Inside) :
    (context.within (statement.build context.scope).2).Inside := by
  have hextends := extends_build hinside.steady statement htold.grammatical
  exact ⟨hextends.steady hinside.steady, hextends.depth ▸ hinside.nested⟩

section

variable {context : Context} {ahead : List Grammar.Word} {depth : Nat} {before after : State} {tree : Tree} {result : Option Tree}

/-- The tree of a phrase, if there is one. -/
structure SpelledOption (scope : Scope) (phrase : Option Phrase) (tree : Option Tree) : Prop where
  tree : tree.map Tree.bare = phrase.map (Phrase.tree scope)
  grammatical : ∀ given ∈ phrase, given.Grammatical
  limits : ∀ given ∈ phrase, given.WithinLimits
  known : ∀ given ∈ phrase, ∀ name ∈ given.names, scope.isUninitialized name = false

theorem SpelledOption.none (scope : Scope) : SpelledOption scope none none := ⟨rfl, by simp, by simp, by simp⟩

theorem Spelled.option {scope : Scope} {phrase : Phrase} (hphrase : Spelled scope phrase tree) :
    SpelledOption scope (some phrase) (some tree) where
  tree := by simp [hphrase.tree]
  grammatical := by simpa using hphrase.grammatical
  limits := by simpa using hphrase.limits
  known := by simpa using hphrase.known

/-- Words begin with a variable declaration. -/
def DeclaredFrom (context : Context) (words : List Grammar.Word) (result : Option Tree) (after : State) : Prop :=
  ∃ var rest tree, result = some tree ∧ words = var.words ++ rest ∧
    Stands (context.within (var.build context.scope).2) rest after ∧ Declared context.scope var tree

theorem Declared.localAdmissible {scope : Scope} {var : Variable} (hvar : Declared scope var tree) (hnested : scope.depth ≠ 0) :
    LocalAdmissible var.name var.initial :=
  ⟨hvar.nameable, fun phrase hphrase => ⟨hvar.limits phrase hphrase, hvar.unmentioned hnested phrase hphrase⟩⟩

section

variable (hbefore : Stands context ahead before)

include hbefore

theorem loopJump_sound (statement : Statement) {word : Grammar.Word} {make : Note → Tree}
    (hwords : statement.words = [word, sign .semicolon])
    (hbuild : ∀ note scope, ((make note).bare, scope) = statement.build scope) (hgrammatical : statement.Grammatical)
    (hadmissible : statement.Admissible true) (hdeclared : statement.declared? = none) (hplain : statement.IsPlain)
    (hreads : Reads (loopJump make) before tree after) : Stated context context.inLoop (word :: ahead) tree after := by
  unfold loopJump at hreads
  rw [reads_previous_bind, reads_get_bind] at hreads
  rcases reads_ite.1 hreads with ⟨-, hreads⟩ | ⟨hloop, hreads⟩
  · simp at hreads
  obtain ⟨rest, closed, rfl, hclosed, hreads⟩ := hbefore.consume (by decide) hreads
  obtain ⟨note, rfl, hafter⟩ := hclosed.alloc hreads
  have hinLoop : context.inLoop = true := by
    rw [← hbefore.context]
    simpa [Context.inLoop, State.context, bne] using hloop
  refine ⟨statement, rest, by rw [hwords]; rfl, ?_, ⟨?_, hgrammatical, hinLoop ▸ hadmissible, by simp [hdeclared]⟩, hplain⟩
  · rwa [← hbuild note]
  · rw [← hbuild note]

variable (hlength : ahead.length < depth)

include hlength

theorem expression_sound (hreads : Reads (expression depth) before tree after) :
    ∃ phrase rest, ahead = phrase.words ++ rest ∧ Stands context rest after ∧ Spelled context.scope phrase tree := by
  unfold expression at hreads
  obtain ⟨phrase, rest, hwords, hafter, hphrase, -⟩ := expressionAt_sound depth hbefore hlength (by decide) hreads
  exact ⟨phrase, rest, hwords, hafter, hphrase⟩

/-! ### Phrases that may be missing -/

theorem optionalExpression_sound {ends : TokenKind} (hreads : Reads (optionalExpression depth ends) before result after) :
    ∃ phrase rest, ahead = optionWords [] phrase ++ rest ∧ Stands context rest after ∧
      SpelledOption context.scope phrase result := by
  rcases reads_optionalExpression.1 hreads with ⟨-, rfl, -, rfl⟩ | ⟨-, given, rfl, hread⟩
  · exact ⟨none, ahead, rfl, hbefore, .none _⟩
  · obtain ⟨phrase, rest, rfl, hafter, hphrase⟩ := expression_sound hbefore hlength hread
    exact ⟨some phrase, rest, rfl, hafter, hphrase.option⟩

theorem behind_sound {kind : TokenKind} (hsign : IsSign kind)
    (hreads : Reads (behind kind (expression depth)) before result after) :
    ∃ phrase rest, ahead = optionWords [sign kind] phrase ++ rest ∧ Stands context rest after ∧
      SpelledOption context.scope phrase result := by
  rcases reads_behind.1 hreads with ⟨hkind, given, middle, rfl, hadvance, hread⟩ | ⟨-, rfl, -, rfl⟩
  · obtain ⟨rest, rfl, hmiddle⟩ := hbefore.sign hkind hsign hadvance
    obtain ⟨phrase, rest, rfl, hafter, hphrase⟩ := expression_sound hmiddle (Nat.lt_of_succ_lt hlength) hread
    exact ⟨some phrase, rest, rfl, hafter, hphrase.option⟩
  · exact ⟨none, ahead, rfl, hbefore, .none _⟩

/-! ### Variables -/

theorem varDeclaration_sound {managed : Bool} (hsteady : context.scope.Steady)
    (hreads : Reads (varDeclaration depth managed) before tree after) :
    ∃ var rest, var.managed = managed ∧ ahead = var.tailWords ++ rest ∧
      Stands (context.within (var.build context.scope).2) rest after ∧ Declared context.scope var tree := by
  obtain ⟨name, rest, named, rfl, hname, hfresh, hnamed, hreads⟩ := hbefore.declared hreads
  obtain ⟨initial, middle, hinitial, hreads⟩ := reads_bind.1 hreads
  obtain ⟨phrase, rest, rfl, hmiddle, hphrase⟩ := behind_sound hnamed (Nat.lt_of_succ_lt hlength) (by decide) hinitial
  obtain ⟨marked, hmarked, hreads⟩ := hmiddle.modifyScope hreads
  obtain ⟨rest, closed, rfl, hclosed, hreads⟩ := hmarked.consume (by decide) hreads
  obtain ⟨note, rfl, hafter⟩ := hclosed.alloc hreads
  refine ⟨⟨managed, name, phrase⟩, rest, rfl, by simp [Variable.tailWords], hafter,
    ⟨by simp [Variable.build, hphrase.tree], hphrase.grammatical, hname, hphrase.limits, ?_, hfresh⟩⟩
  intro hnested given hgiven hmention
  have hknown := hphrase.known given hgiven _ hmention
  rw [hsteady.isUninitialized_declare] at hknown
  simp [hnested] at hknown

theorem localVar_sound (hsteady : context.scope.Steady) (hkind : before.current.kind = .kwVar)
    (hreads : Reads (advance >>= fun _ => some <$> varDeclaration depth false) before result after) :
    DeclaredFrom context ahead result after := by
  obtain ⟨rest, middle, tree, rfl, hmiddle, rfl, hread⟩ := hbefore.keyword hkind (by decide) hreads
  obtain ⟨var, rest, hmanaged, rfl, hafter, hvar⟩ := varDeclaration_sound hmiddle (Nat.lt_of_succ_lt hlength) hsteady hread
  exact ⟨var, rest, tree, rfl, by simp [Variable.words, hmanaged], hafter, hvar⟩

theorem managedVar_sound (hsteady : context.scope.Steady) (hkind : before.current.kind = .kwManaged)
    (hreads : Reads (advance >>= fun _ => some <$> managedDeclaration depth) before result after) :
    DeclaredFrom context ahead result after := by
  obtain ⟨rest, middle, tree, rfl, hmiddle, rfl, hread⟩ := hbefore.keyword hkind (by decide) hreads
  obtain ⟨rest, next, rfl, hnext, hread⟩ := hmiddle.consume (by decide) hread
  simp only [length_cons] at hlength
  obtain ⟨var, rest, hmanaged, rfl, hafter, hvar⟩ := varDeclaration_sound hnext (by omega) hsteady hread
  exact ⟨var, rest, tree, rfl, by simp [Variable.words, hmanaged], hafter, hvar⟩

/-! ### Statements without statements in them

The keyword has been read already. -/

theorem expressionStatement_sound (hreads : Reads (expressionStatement depth) before tree after) :
    ∃ phrase rest, ahead = phrase.words ++ sign .semicolon :: rest ∧ Stands context rest after ∧
      Spelled context.scope phrase tree := by
  obtain ⟨given, middle, hread, hreads⟩ := reads_bind.1 hreads
  obtain ⟨phrase, rest, rfl, hmiddle, hphrase⟩ := expression_sound hbefore hlength hread
  obtain ⟨rest, closed, rfl, hclosed, hreads⟩ := hmiddle.consume (by decide) hreads
  obtain ⟨-, rfl, rfl⟩ := reads_pure.1 hreads
  exact ⟨phrase, rest, rfl, hclosed, hphrase⟩

theorem returnStatement_sound (inLoop : Bool) (hreads : Reads (returnStatement depth) before tree after) : Stated context inLoop (sign .kwReturn :: ahead) tree after := by
  obtain ⟨value, middle, hvalue, hreads⟩ := reads_bind.1 hreads
  obtain ⟨phrase, rest, rfl, hmiddle, hphrase⟩ := optionalExpression_sound hbefore hlength hvalue
  obtain ⟨rest, closed, rfl, hclosed, hreads⟩ := hmiddle.consume (by decide) hreads
  obtain ⟨note, rfl, hafter⟩ := hclosed.alloc hreads
  exact ⟨.ret phrase, rest, by simp, hafter, ⟨by simp [Statement.build, hphrase.tree], hphrase.grammatical, hphrase.limits,
    by simp [declared?]⟩, trivial⟩

/-! ### Parts of statements -/

/-- The condition in parentheses that stands behind `if` and `while`. -/
theorem condition_sound {α : Type} {next : Tree → Parser α} [∀ tree, Honest (next tree)] {what what' : String} {result : α}
    (hreads : Reads (do
      consume .lparen what
      let condition ← expression depth
      consume .rparen what'
      next condition) before result after) :
    ∃ condition tree rest middle, ahead = sign .lparen :: condition.words ++ sign .rparen :: rest ∧ Stands context rest middle ∧
      Spelled context.scope condition tree ∧ Reads (next tree) middle result after := by
  obtain ⟨rest, opened, rfl, hopened, hreads⟩ := hbefore.consume (by decide) hreads
  obtain ⟨tree, middle, hread, hreads⟩ := reads_bind.1 hreads
  obtain ⟨condition, rest, rfl, hmiddle, hcondition⟩ := expression_sound hopened (Nat.lt_of_succ_lt hlength) hread
  obtain ⟨rest, closed, rfl, hclosed, hreads⟩ := hmiddle.consume (by decide) hreads
  exact ⟨condition, tree, rest, closed, rfl, hclosed, hcondition, hreads⟩

theorem forInitial_sound (hinside : context.Inside) (hreads : Reads (forInitial depth) before result after) :
    ∃ (initial : ForInitial) (rest : _), ahead = initial.words ++ rest ∧ Stands (context.within (initial.build context.scope).2) rest after ∧
      result.map Tree.bare = (initial.build context.scope).1 ∧ initial.Grammatical ∧ initial.Admissible := by
  rcases reads_accept_bind.1 hreads with ⟨hkind, next, hadvance, hreads⟩ | ⟨-, hreads⟩
  · obtain ⟨rest, rfl, hnext⟩ := hbefore.sign hkind (by decide) hadvance
    obtain ⟨-, rfl, rfl⟩ := reads_pure.1 hreads
    exact ⟨.nothing, rest, rfl, hnext, rfl, trivial, trivial⟩
  rcases reads_accept_bind.1 hreads with ⟨hkind, next, hadvance, hreads⟩ | ⟨-, hreads⟩
  · obtain ⟨rest, rfl, hnext⟩ := hbefore.sign hkind (by decide) hadvance
    obtain ⟨tree, hread, rfl⟩ := reads_map.1 hreads
    obtain ⟨⟨_, name, initial⟩, rest, rfl, rfl, hafter, hvar⟩ :=
      varDeclaration_sound hnext (Nat.lt_of_succ_lt hlength) hinside.steady hread
    exact ⟨.var name initial, rest, rfl, hafter, congrArg some hvar.tree, hvar.grammatical,
      hvar.localAdmissible hinside.nested⟩
  · obtain ⟨tree, hread, rfl⟩ := reads_map.1 hreads
    obtain ⟨phrase, rest, rfl, hafter, hphrase⟩ := expressionStatement_sound hbefore hlength hread
    exact ⟨.expression phrase, rest, by simp [ForInitial.words], hafter, congrArg some hphrase.tree, hphrase.grammatical,
      hphrase.limits⟩

/-- The condition of a `for`: where there is none, a node for `true` is made. -/
theorem forCondition_sound (hreads : Reads (forCondition depth) before tree after) :
    ∃ phrase rest, ahead = optionWords [] phrase ++ rest ∧ Stands context rest after ∧
      SpelledOption context.scope phrase (phrase.map fun _ => tree) ∧ tree.bare = conditionTree context.scope phrase := by
  rcases reads_forCondition.1 hreads with ⟨-, hreads⟩ | ⟨-, hread⟩
  · obtain ⟨note, rfl, hafter⟩ := hbefore.alloc hreads
    exact ⟨none, ahead, rfl, hafter, .none _, rfl⟩
  · obtain ⟨phrase, rest, rfl, hafter, hphrase⟩ := expression_sound hbefore hlength hread
    exact ⟨some phrase, rest, rfl, hafter, hphrase.option, hphrase.tree⟩

end

/-! ### Blocks -/

variable {nested : Parser Tree} (hnested : NestedSound nested depth) (hinside : context.Inside)
  (hbefore : Stands context ahead before) (hlength : ahead.length + 1 < depth)

include hnested hinside hbefore hlength

theorem blockMember_sound (hreads : Reads (blockMember nested depth) before result after) :
    ∃ statement rest tree, result = some tree ∧ ahead = statement.words ++ rest ∧
      Stands (context.within (statement.build context.scope).2) rest after ∧ Told context.scope context.inLoop statement tree := by
  have hdeclared (h : DeclaredFrom context ahead result after) : ∃ statement rest tree, result = some tree ∧
      ahead = statement.words ++ rest ∧ Stands (context.within (statement.build context.scope).2) rest after ∧
      Told context.scope context.inLoop statement tree := by
    obtain ⟨var, rest, tree, hresult, hwords, hafter, hvar⟩ := h
    exact ⟨.declaration var, rest, tree, hresult, by simpa using hwords, hafter, hvar.tree, hvar.grammatical,
      hvar.localAdmissible hinside.nested, by simpa [declared?] using hvar.fresh⟩
  unfold blockMember at hreads
  rw [reads_get_bind] at hreads
  split at hreads
  · rename_i hkind
    exact hdeclared (localVar_sound hbefore (by omega) hinside.steady hkind hreads)
  · rename_i hkind
    exact hdeclared (managedVar_sound hbefore (by omega) hinside.steady hkind hreads)
  · simp at hreads
  · simp at hreads
  · obtain ⟨tree, hread, rfl⟩ := reads_map.1 hreads
    obtain ⟨statement, rest, hwords, hafter, hstatement, -⟩ := hnested hinside hbefore hlength hread
    exact ⟨statement, rest, tree, rfl, hwords, hafter, hstatement⟩

theorem members_sound {count : Nat} {trees : List Tree}
    (hmembers : Members endsBody (blockMember nested depth) count before trees after) :
    ∃ statements rest, ahead = allWords statements ++ rest ∧
      Stands (context.within (buildAll context.scope statements).2) rest after ∧
      ToldAll context.scope context.inLoop statements trees := by
  induction hmembers generalizing context ahead with
  | nil => exact ⟨[], ahead, rfl, hbefore, rfl, trivial, trivial, nodup_nil, by simp⟩
  | cons _ hread _ ih =>
    obtain ⟨statement, rest, tree, rfl, rfl, hmiddle, hstatement⟩ := blockMember_sound hnested hinside hbefore hlength hread
    rw [length_append] at hlength
    obtain ⟨statements, rest, rfl, hafter, hstatements⟩ := ih (hstatement.inside hinside) hmiddle (by omega)
    have hextends := extends_build hinside.steady statement hstatement.grammatical
    obtain ⟨hnodup, hfresh⟩ := hextends.fresh_append (by cases statement.declared? <;> simp)
      (by simpa using hstatement.fresh) hstatements.nodup hstatements.fresh
    rw [← filterMap_cons_toList] at hnodup hfresh
    exact ⟨statement :: statements, rest, by rw [allWords, append_assoc], hafter,
      by simp [buildAll, hstatement.tree, hstatements.trees], ⟨hstatement.grammatical, hstatements.grammatical⟩,
      ⟨hstatement.admissible, hstatements.admissible⟩, hnodup, hfresh⟩

variable [Honest nested]

omit hinside in
theorem block_sound (hsteady : context.scope.Steady) (hreads : Reads (block nested depth) before tree after) :
    ∃ members rest, sign .lbrace :: ahead = (Statement.block members).words ++ rest ∧
      Stands (context.within ((Statement.block members).build context.scope).2) rest after ∧
      Told context.scope context.inLoop (.block members) tree := by
  obtain ⟨entered, hentered, hreads⟩ := hbefore.modifyScope hreads
  obtain ⟨trees, middle, hbody, hreads⟩ := reads_bind.1 hreads
  obtain ⟨count, hmembers, -, -⟩ := reads_body.1 hbody
  obtain ⟨members, rest, rfl, hmiddle, hmembers⟩ :=
    members_sound hnested ⟨hsteady.enter, by simp⟩ hentered hlength hmembers
  obtain ⟨rest, closed, rfl, hclosed, hreads⟩ := hmiddle.consume (by decide) hreads
  obtain ⟨left, hleft, hreads⟩ := hclosed.modifyScope hreads
  obtain ⟨linked, hlinked, hreads⟩ := hleft.link hreads
  obtain ⟨note, rfl, hafter⟩ := hlinked.alloc hreads
  exact ⟨members, rest, by simp, hafter, by simp [Statement.build, hmembers.trees], hmembers.grammatical,
    ⟨hmembers.nodup, hmembers.admissible⟩, by simp [declared?]⟩

/-! ### Statements with statements in them -/

theorem else_sound (hreads : Reads (behind .kwElse nested) before result after) :
    ∃ negative rest, ahead = elseWords negative ++ rest ∧
      Stands (context.within (buildElse context.scope negative).2) rest after ∧
      result.map Tree.bare = (buildElse context.scope negative).1 ∧ ElseGrammatical negative ∧
      ElseAdmissible context.inLoop negative := by
  rcases reads_behind.1 hreads with ⟨helse, given, next, rfl, hadvance, hread⟩ | ⟨-, rfl, -, rfl⟩
  · obtain ⟨rest, rfl, hnext⟩ := hbefore.sign helse (by decide) hadvance
    obtain ⟨negative, rest, rfl, hafter, hnegative, hplain⟩ := hnested hinside hnext (Nat.lt_of_succ_lt hlength) hread
    exact ⟨some negative, rest, rfl, hafter, congrArg some hnegative.tree, ⟨hplain, hnegative.grammatical⟩,
      hnegative.admissible⟩
  · exact ⟨none, ahead, rfl, hbefore, rfl, trivial, trivial⟩

theorem ifStatement_sound (hreads : Reads (ifStatement nested depth) before tree after) :
    Stated context context.inLoop (sign .kwIf :: ahead) tree after := by
  obtain ⟨condition, conditionTree, rest, closed, rfl, hclosed, hcondition, hreads⟩ :=
    condition_sound hbefore (by omega) hreads
  simp only [cons_append, length_cons, length_append] at hlength
  obtain ⟨positiveTree, front, hread, hreads⟩ := reads_bind.1 hreads
  obtain ⟨positive, rest, rfl, hfront, hpositive, hplain⟩ := hnested hinside hclosed (by omega) hread
  rw [length_append] at hlength
  obtain ⟨negativeTree, last, hread', hreads⟩ := reads_bind.1 hreads
  obtain ⟨negative, rest, rfl, hlast, hnegative, hgrammatical, hadmissible⟩ :=
    else_sound hnested (hpositive.inside hinside) hfront (by omega) hread'
  obtain ⟨note, rfl, hafter⟩ := hlast.alloc hreads
  exact ⟨.ifElse condition positive negative, rest, by simp, hafter,
    ⟨by simp [Statement.build, hcondition.tree, hpositive.tree, hnegative],
      ⟨hcondition.grammatical, ⟨hplain, hpositive.grammatical⟩, hgrammatical⟩,
      ⟨hcondition.limits, hpositive.admissible, hadmissible⟩, by simp [declared?]⟩, trivial⟩

/-- The body of a loop is read as one loop deeper. -/
theorem loopBody_sound (hreads : Reads (loopBody nested) before tree after) : Stated context true ahead tree after := by
  obtain ⟨entered, hentered, hreads⟩ := hbefore.setLoops (· + 1) hreads
  obtain ⟨bodyTree, middle, hread, hreads⟩ := reads_bind.1 hreads
  have hinside' : Context.Inside { context with loopDepth := context.loopDepth + 1 } := ⟨hinside.steady, hinside.nested⟩
  obtain ⟨statement, rest, hwords, hmiddle, hstatement, hplain⟩ := hnested hinside' hentered hlength hread
  obtain ⟨left, hleft, hreads⟩ := hmiddle.setLoops (· - 1) hreads
  obtain ⟨-, rfl, rfl⟩ := reads_pure.1 hreads
  exact ⟨statement, rest, hwords, hleft, hstatement, hplain⟩

theorem whileStatement_sound (hreads : Reads (whileStatement nested depth) before tree after) :
    Stated context context.inLoop (sign .kwWhile :: ahead) tree after := by
  obtain ⟨condition, conditionTree, rest, closed, rfl, hclosed, hcondition, hreads⟩ :=
    condition_sound hbefore (by omega) hreads
  simp only [cons_append, length_cons, length_append] at hlength
  obtain ⟨bodyTree, front, hread, hreads⟩ := reads_bind.1 hreads
  obtain ⟨body, rest, rfl, hfront, hbody, hplain⟩ := loopBody_sound hnested hinside hclosed (by omega) hread
  obtain ⟨note, rfl, hafter⟩ := hfront.alloc hreads
  exact ⟨.whileLoop condition body, rest, by simp, hafter, ⟨by simp [Statement.build, hcondition.tree, hbody.tree],
    ⟨hcondition.grammatical, hplain, hbody.grammatical⟩, ⟨hcondition.limits, hbody.admissible⟩,
    by simp [declared?]⟩, trivial⟩

theorem forStatement_sound (hreads : Reads (forStatement nested depth) before tree after) :
    Stated context context.inLoop (sign .kwFor :: ahead) tree after := by
  obtain ⟨entered, hentered, hreads⟩ := hbefore.modifyScope hreads
  obtain ⟨rest, opened, rfl, hopened, hreads⟩ := hentered.consume (by decide) hreads
  have hinside₁ : (context.within context.scope.enter).Inside := ⟨hinside.steady.enter, by simp⟩
  obtain ⟨initialTree, first, hread₁, hreads⟩ := reads_bind.1 hreads
  simp only [length_cons] at hlength
  obtain ⟨initial, rest, rfl, hfirst, hinitialTree, hinitial, hinitial'⟩ := forInitial_sound hopened (by omega) hinside₁ hread₁
  have hextends := initial.extends_build context.scope.enter
  have hinside₂ : (context.within (initial.build context.scope.enter).2).Inside :=
    ⟨hextends.steady hinside₁.steady, hextends.depth ▸ hinside₁.nested⟩
  obtain ⟨conditionTree, second, hread₂, hreads⟩ := reads_bind.1 hreads
  rw [length_append] at hlength
  obtain ⟨condition, rest, rfl, hsecond, hcondition, hconditionTree⟩ := forCondition_sound hfirst (by omega) hread₂
  obtain ⟨rest, third, rfl, hthird, hreads⟩ := hsecond.consume (by decide) hreads
  obtain ⟨stepTree, fourth, hread₃, hreads⟩ := reads_bind.1 hreads
  simp only [length_append, length_cons] at hlength
  obtain ⟨step, rest, rfl, hfourth, hstep⟩ := optionalExpression_sound hthird (by omega) hread₃
  obtain ⟨rest, fifth, rfl, hfifth, hreads⟩ := hfourth.consume (by decide) hreads
  obtain ⟨bodyTree, sixth, hread₄, hreads⟩ := reads_bind.1 hreads
  simp only [length_append, length_cons] at hlength
  obtain ⟨body, rest, rfl, hsixth, hbody, hplain⟩ := loopBody_sound hnested hinside₂ hfifth (by omega) hread₄
  obtain ⟨left, hleft, hreads⟩ := hsixth.modifyScope hreads
  obtain ⟨_, made, hread₅, hreads⟩ := reads_bind.1 hreads
  obtain ⟨note, rfl, hmade⟩ := hleft.alloc hread₅
  obtain ⟨linked, hlinked, hreads⟩ := hmade.link hreads
  obtain ⟨note', rfl, hafter⟩ := hlinked.alloc hreads
  have hfirst : initialTree.toList.map Tree.bare = (initialTree.map Tree.bare).toList := by cases initialTree <;> rfl
  exact ⟨.forLoop initial condition step body, rest, by simp, hafter,
    ⟨by simp [Statement.build, hfirst, hinitialTree, hconditionTree, hstep.tree, hbody.tree],
      ⟨hinitial, hcondition.grammatical, hstep.grammatical, hplain, hbody.grammatical⟩,
      ⟨hinitial', hcondition.limits, hstep.limits, hbody.admissible⟩, by simp [Statement.declared?]⟩, trivial⟩

theorem keywordStatement_sound {kind : TokenKind} {reader : Parser Tree}
    (hreader : keywordStatement? nested depth kind = some reader) (hreads : Reads reader before tree after) :
    Stated context context.inLoop (sign kind :: ahead) tree after := by
  unfold keywordStatement? at hreader
  split at hreader
  all_goals cases hreader
  · exact ifStatement_sound hnested hinside hbefore hlength hreads
  · exact whileStatement_sound hnested hinside hbefore hlength hreads
  · exact forStatement_sound hnested hinside hbefore hlength hreads
  · exact returnStatement_sound hbefore (by omega) _ hreads
  · exact loopJump_sound hbefore .breakLoop rfl (fun _ _ => rfl) trivial rfl rfl trivial hreads
  · exact loopJump_sound hbefore .continueLoop rfl (fun _ _ => rfl) trivial rfl rfl trivial hreads
  · obtain ⟨members, rest, hwords, hafter, hmembers⟩ := block_sound hnested hbefore hlength hinside.steady hreads
    exact ⟨.block members, rest, hwords, hafter, hmembers, trivial⟩

end

/-- Whatever is read as a statement is one, as long as the depth is not used up. -/
theorem statement_sound (depth : Nat) : NestedSound (statement depth) depth := by
  induction depth with
  | zero =>
    intro _ _ _ _ _ _ _ hlength
    omega
  | succ depth ih =>
    intro context ahead before after tree hinside hbefore hlength hreads
    unfold statement at hreads
    rw [parser_enter, reads_get_bind] at hreads
    split at hreads
    · rename_i reader hreader
      have : Honest reader := keeps_of_mem_keywordStatement? _ hreader
      have hsign : IsSign before.current.kind := by
        revert hreader
        cases before.current.kind <;> simp [keywordStatement?, IsSign, TokenKind.isOpen]
      obtain ⟨_, next, hadvance, hreads⟩ := reads_bind.1 hreads
      obtain ⟨rest, rfl, hnext⟩ := hbefore.sign rfl hsign hadvance
      exact keywordStatement_sound ih hinside hnext (Nat.lt_of_succ_lt_succ hlength) hreader hreads
    · obtain ⟨phrase, rest, rfl, hafter, hphrase⟩ := expressionStatement_sound hbefore (by omega) hreads
      exact ⟨.expression phrase, rest, by simp, hafter, ⟨hphrase.tree, hphrase.grammatical, hphrase.limits,
        by simp [declared?]⟩, trivial⟩

end NanScript.Parser
