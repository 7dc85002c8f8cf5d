import NanScript.Proofs.Parser.PhraseSound
import NanScript.Proofs.Parser.Standing

/-!
# Phrases are read

The other direction: where the text of a phrase is ahead, `expressionAt` reads it without a report, makes its tree and stops
behind it. What follows the phrase must not look like a part of it (`Follows`).

The grammar builds a chain of operators from the left, and so does the parser, but the parser begins with the innermost
operand of the chain and not with its last operator. `Reaches` says that the loop over the operators gets to the whole
phrase: it is enough to know how it goes on from there. It is proved for a chain from what it says of the left operand.
-/

namespace NanScript

open Grammar Operator Precedence List Phrase

/-! ### The left operand -/

namespace Grammar.Phrase

/-- The operator that makes a phrase of its left operand: the word it is written with, and the words behind that. -/
structure Link where
  left : Phrase
  operator : Operator
  word : Grammar.Word
  behind : List Grammar.Word

def link? : Phrase → Option Link
  | binary op left right => some ⟨left, .binary op, sign op.sign, right.words⟩
  | ternary mark condition positive negative =>
    some ⟨condition, .ternary, sign mark.kind, positive.words ++ sign .colon :: negative.words⟩
  | call callee arguments => some ⟨callee, .call, sign .lparen, (commaWords arguments).tail ++ [sign .rparen]⟩
  | get object name => some ⟨object, .dot, sign .dot, [identifier name]⟩
  | index object position => some ⟨object, .index, sign .lbracket, position.words ++ [sign .rbracket]⟩
  | set object name value => some ⟨object, .dot, sign .dot, identifier name :: sign .eq :: value.words⟩
  | setIndex object position value =>
    some ⟨object, .index, sign .lbracket, position.words ++ sign .rbracket :: sign .eq :: value.words⟩
  | _ => none

variable {phrase : Phrase} {link : Link} (hlink : phrase.link? = some link)

include hlink

theorem words_of_link? : phrase.words = link.left.words ++ link.word :: link.behind := by
  cases phrase <;> cases hlink <;> simp

theorem operator_of_link? : ofToken? link.word.kind = some link.operator := by
  cases phrase <;> cases hlink <;> first
    | rfl
    | simp

theorem level_of_link? : phrase.level ≤ link.operator.precedence := by
  cases phrase <;> cases hlink <;> first
    | exact Nat.le_refl _
    | exact assignment_le _
    | exact Nat.le_of_eq (congrArg _ (precedence_binary _).symm)

end Grammar.Phrase

namespace Parser

open Grammar State

/-! ### What can be said -/

/-- The words that follow a phrase are none that a reader at `precedence` would take for a part of it. -/
structure Follows (precedence : Precedence) (rest : List Grammar.Word) : Prop where
  operator : ∀ operator, ofToken? (headKind rest) = some operator → ¬ precedence ≤ operator.precedence
  assignment : precedence ≤ .assignment → assignmentOp? (headKind rest) = none

/-- A word that is neither an operator nor an assignment sign ends every phrase. -/
theorem follows_of_kind {kind : TokenKind} (hoperator : ofToken? kind = none)
    (hassignment : assignmentOp? kind = none) (precedence : Precedence) {rest : List Grammar.Word}
    (hkind : headKind rest = kind) : Follows precedence rest := by
  refine ⟨fun operator hsome => ?_, fun _ => hkind ▸ hassignment⟩
  rw [hkind, hoperator] at hsome
  contradiction

/-- Nothing stands against a phrase in a scope. -/
structure Sayable (scope : Scope) (phrase : Phrase) : Prop where
  grammatical : phrase.Grammatical
  limits : phrase.WithinLimits
  known : ∀ name ∈ phrase.names, scope.isUninitialized name = false

variable {scope : Scope} {phrase : Phrase} {name : String} {word : Grammar.Word}

theorem Sayable.part {part : Phrase} (h : Sayable scope phrase) (hgrammatical : part.Grammatical)
    (hlimits : part.WithinLimits) (hnames : part.names ⊆ phrase.names) : Sayable scope part :=
  ⟨hgrammatical, hlimits, fun name hname => h.known name (hnames hname)⟩

theorem Sayable.items {items : List Phrase} (h : Sayable scope phrase) (hgrammatical : AllGrammatical items)
    (hlimits : AllWithinLimits items) (hnames : allNames items ⊆ phrase.names) :
    ∀ item ∈ items, Sayable scope item := fun item hitem =>
  h.part (allGrammatical_iff.1 hgrammatical item hitem) (allWithinLimits_iff.1 hlimits item hitem)
    fun _ hname => hnames (mem_allNames.2 ⟨item, hitem, hname⟩)

theorem Sayable.left {link : Link} (h : Sayable scope phrase) (hlink : phrase.link? = some link) :
    Sayable scope link.left ∧ link.operator.leftRung ≤ link.left.level := by
  obtain ⟨hgrammatical, hlimits, hknown⟩ := h
  cases phrase <;> cases hlink <;> simp only [names, mem_append] at hknown
  · refine ⟨⟨hgrammatical.1.2, hlimits.1, fun name hname => hknown name (.inl hname)⟩, ?_⟩
    exact Nat.le_trans (Nat.le_of_eq (congrArg _ (precedence_binary _))) hgrammatical.1.1
  · exact ⟨⟨hgrammatical.1.2, hlimits.1, fun name hname => hknown name (.inl (.inl hname))⟩, hgrammatical.1.1⟩
  · exact ⟨⟨hgrammatical.1.2, hlimits.1, fun name hname => hknown name (.inl hname)⟩, hgrammatical.1.1⟩
  · exact ⟨⟨hgrammatical.2, hlimits.1, hknown⟩, hgrammatical.1⟩
  · exact ⟨⟨hgrammatical.1.2, hlimits.1, fun name hname => hknown name (.inl hname)⟩, hgrammatical.1.1⟩
  · exact ⟨⟨hgrammatical.1.2, hlimits.1, fun name hname => hknown name (.inl hname)⟩, hgrammatical.1.1⟩
  · exact ⟨⟨hgrammatical.1.2, hlimits.1, fun name hname => hknown name (.inl (.inl hname))⟩, hgrammatical.1.1⟩

/-- The tree of a phrase has been made, and the parser stands behind it. -/
def Yields (context : Context) (phrase : Phrase) (rest : List Grammar.Word) (tree : Tree) (after : State) : Prop :=
  tree.bare = phrase.tree context.scope ∧ Awaits context rest after

/-- Wherever the text of the phrase is ahead, it is read as far as it goes. -/
def Complete (depth : Nat) (phrase : Phrase) : Prop :=
  ∀ ⦃context : Context⦄ ⦃precedence : Precedence⦄ ⦃before : State⦄ ⦃rest : List Grammar.Word⦄,
    Sayable context.scope phrase → precedence ≤ phrase.level → precedence ≤ .unary → Follows precedence rest →
    Awaits context (phrase.words ++ rest) before →
    Succeeds (expressionAt depth precedence) before (Yields context phrase rest)

theorem Complete.loosest {depth : Nat} {context : Context} {before : State} {rest : List Grammar.Word}
    (h : Complete depth phrase) (hsayable : Sayable context.scope phrase) (hfollows : Follows .assignment rest)
    (hawaits : Awaits context (phrase.words ++ rest) before) :
    Succeeds (expressionAt depth .assignment) before (Yields context phrase rest) :=
  h hsayable phrase.level.assignment_le (by decide) hfollows hawaits

/-! ### Lists -/

section

variable {round : Activity} {item : List Tree → Parser Tree} {depth limit steps : Nat} {context : Context} {rest : List Grammar.Word}
  {before : State} {phrases : List Phrase}

/-- The items of a list are read as phrases, as long as they are not too many. -/
def ReadsItems (item : List Tree → Parser Tree) (depth limit : Nat) : Prop :=
  ∀ ⦃items : List Tree⦄ ⦃before : State⦄ ⦃post : Tree → State → Prop⦄, items.length < limit →
    Succeeds (expressionAt depth .assignment) before post → Succeeds (item items) before post

variable (hitem : ReadsItems item depth limit) (hcomplete : ∀ phrase ∈ phrases, Complete depth phrase)
  (hsayable : ∀ phrase ∈ phrases, Sayable context.scope phrase)

include hitem hcomplete hsayable

theorem sepByBackward_complete (hnonempty : phrases ≠ []) (hfollows : Follows .assignment rest) (hend : headKind rest ≠ .comma) {items : List Tree}
    (hsteps : phrases.length ≤ steps) (hlimit : items.length + phrases.length ≤ limit)
    (hawaits : Awaits context ((commaWords phrases).tail ++ rest) before) :
    Succeeds (sepByBackward round item steps items) before fun all after =>
      all.map Tree.bare = (phrases.map (tree context.scope)).reverse ++ items.map Tree.bare ∧
        Awaits context rest after := by
  induction phrases generalizing steps items before with
  | nil => contradiction
  | cons phrase others ih =>
    simp only [length_cons] at hsteps hlimit
    obtain ⟨steps, rfl⟩ := Nat.exists_eq_add_one_of_ne_zero (Nat.ne_of_gt (Nat.zero_lt_of_lt hsteps))
    simp only [commaWords, cons_append, tail_cons, append_assoc] at hawaits
    have hfollows' : Follows .assignment (commaWords others ++ rest) := by
      cases others with
      | nil => exact hfollows
      | cons second more => exact follows_of_kind rfl rfl _ rfl
    unfold sepByBackward
    refine (hitem (by omega) ((hcomplete phrase (by simp)).loosest (hsayable phrase (by simp)) hfollows' hawaits)).bind ?_
    rintro tree middle ⟨htree, hmiddle⟩
    cases others with
    | nil =>
      refine (hmiddle.reject hend).bind ?_
      rintro _ after ⟨rfl, hafter⟩
      exact hafter.pure ⟨by simp [htree], hafter⟩
    | cons second more =>
      refine hmiddle.accept.bind ?_
      rintro _ next ⟨rfl, hnext⟩
      refine (ih (fun other hother => hcomplete other (mem_cons_of_mem _ hother))
        (fun other hother => hsayable other (mem_cons_of_mem _ hother)) (by simp) (by omega)
        (by simp only [length_cons] at hlimit ⊢; omega) (by simpa using hnext)).mono ?_
      rintro all after ⟨hall, hafter⟩
      exact ⟨by simp [hall, htree], hafter⟩

/-- A list up to a closing sign, and the node made of it. -/
theorem listed_complete {close : TokenKind} {what : String} {make : List Tree → Note → Tree} {post : Tree → State → Prop} (hoperator : ofToken? close = none)
    (hassignment : assignmentOp? close = none) (hcomma : close ≠ .comma) (hstart : close.startsPhrase = false)
    (hsteps : phrases.length ≤ steps) (hlimit : phrases.length ≤ limit)
    (hawaits : Awaits context ((commaWords phrases).tail ++ sign close :: rest) before)
    (hpost : ∀ trees note after, trees.map Tree.bare = phrases.map (tree context.scope) → Awaits context rest after →
      post (make trees note) after) :
    Succeeds (do
      let items ← if ← check close then pure [] else sepBy round item steps []
      consume close what
      link items
      alloc (make items)) before post := by
  have hclose : ∀ trees middle, trees.map Tree.bare = phrases.map (tree context.scope) ∧
      Awaits context (sign close :: rest) middle → Succeeds (do
        consume close what
        link trees
        alloc (make trees)) middle post := by
    rintro trees middle ⟨htrees, hmiddle⟩
    exact hmiddle.consume.bind fun _ _ hclosed => hclosed.link.bind fun _ _ hlinked =>
      hlinked.alloc fun note after => hpost trees note after htrees
  rw [succeeds_check_bind]
  cases phrases with
  | nil =>
    have hcheck : before.check close = true := by simp [hawaits.check]
    rw [hcheck]
    exact hclose [] before ⟨rfl, hawaits⟩
  | cons phrase others =>
    have hother : headKind ((commaWords (phrase :: others)).tail ++ sign close :: rest) ≠ close := by
      have hstarts := phrase.startsPhrase_headKind (commaWords others ++ sign close :: rest)
      intro hkind
      rw [commaWords, cons_append, tail_cons, append_assoc] at hkind
      rw [hkind, hstart] at hstarts
      contradiction
    have hcheck : before.check close = false := by rwa [hawaits.check, beq_eq_false_iff_ne]
    rw [hcheck]
    have hend : headKind (sign close :: rest) ≠ .comma := hcomma
    have hlist : Succeeds (sepBy round item steps []) before fun trees after =>
        trees.map Tree.bare = (phrase :: others).map (tree context.scope) ∧
          Awaits context (sign close :: rest) after := by
      refine (sepByBackward_complete hitem hcomplete hsayable (by simp) (follows_of_kind hoperator hassignment _ rfl) hend
        hsteps (by simpa using hlimit) hawaits).bind ?_
      rintro trees after ⟨htrees, hafter⟩
      exact hafter.pure ⟨by simp [htrees], hafter⟩
    exact hlist.bind hclose

end

/-! ### Operands -/

/-- The first word of a phrase has a reader, and that makes the tree of the phrase. -/
def Begins (depth : Nat) (context : Context) (phrase : Phrase) (rest : List Grammar.Word) (before : State) : Prop :=
  Succeeds advance before fun _ next => ∃ reader, primary? (expressionAt depth) depth before.current = some reader ∧
    Succeeds reader next (Yields context phrase rest)

section

variable {depth : Nat} {context : Context} {phrase : Phrase} {before : State} {rest : List Grammar.Word}

theorem Awaits.begins {more : List Grammar.Word} (reader : Parser Tree)
    (h : Awaits context (word :: more) before) (hreader : primary? (expressionAt depth) depth before.current = some reader)
    (hreads : ∀ next, Awaits context more next → Succeeds reader next (Yields context phrase rest)) :
    Begins depth context phrase rest before :=
  h.skip.mono fun _ next hnext => ⟨reader, hreader, hreads next hnext⟩

/-- Whatever is no operation on a left operand begins with its own word. -/
theorem begins_of_awaits (hparts : ∀ part : Phrase, part.words.length < phrase.words.length → Complete depth part)
    (hdepth : phrase.words.length ≤ depth) (hsayable : Sayable context.scope phrase) (hlink : phrase.link? = none)
    (hvalue : phrase.level ≠ .assignment) (hfollows : phrase.level = .unary → Follows .unary rest)
    (h : Awaits context (phrase.words ++ rest) before) : Begins depth context phrase rest before := by
  cases phrase with
  | integer lexeme =>
    have hvalue : Literal.integer? lexeme = some (integerValue lexeme) := integer?_eq_some.2 ⟨hsayable.limits, rfl⟩
    refine h.begins (integer lexeme) (by simp [primary?, h.kind, h.lexeme rfl]) fun next hnext => ?_
    rw [integer, hvalue]
    exact hnext.alloc fun _ _ hafter => ⟨rfl, hafter⟩
  | float lexeme =>
    exact h.begins (alloc (.float · (Binary64.ofDecimal lexeme.toList))) (by simp [primary?, h.kind, h.lexeme rfl])
      fun next hnext => hnext.alloc fun _ _ hafter => ⟨rfl, hafter⟩
  | string lexeme =>
    refine h.begins (string lexeme) (by simp [primary?, h.kind, h.lexeme rfl]) fun next hnext => ?_
    rw [string, intern_of_nameable hsayable.limits, pure_bind]
    exact hnext.alloc fun _ _ hafter => ⟨rfl, hafter⟩
  | bool value =>
    exact h.begins (alloc (.bool · value)) (by cases value <;> simp [primary?, h.kind]) fun next hnext =>
      hnext.alloc fun _ _ hafter => ⟨rfl, hafter⟩
  | null =>
    exact h.begins (alloc .null) (by simp [primary?, h.kind]) fun next hnext => hnext.alloc fun _ _ hafter => ⟨rfl, hafter⟩
  | use name =>
    have hknown := hsayable.known name (by simp)
    refine h.begins (nameUse name) (by simp [primary?, h.kind, h.lexeme rfl, identifier]) fun next hnext => ?_
    rw [nameUse, intern_of_nameable hsayable.limits, pure_bind, succeeds_get_bind, hnext.scope]
    simp only [hknown, Bool.false_eq_true, if_false]
    exact hnext.alloc fun _ _ hafter => ⟨rfl, hafter⟩
  | new name =>
    refine h.begins newObject (by simp [primary?, h.kind]) fun next hnext => hnext.consumeName.bind ?_
    rintro _ named ⟨rfl, hnamed⟩
    rw [succeeds_previous_bind, intern_of_nameable hsayable.limits, pure_bind]
    exact hnamed.consume.bind fun _ _ hopened => hopened.consume.bind fun _ _ hclosed =>
      hclosed.alloc fun _ _ hafter => ⟨rfl, hafter⟩
  | group inner =>
    simp only [Phrase.words, cons_append, append_assoc, nil_append] at h
    simp only [Phrase.words, length_append, length_cons] at hparts
    have hinner : Complete depth inner := hparts inner (by omega)
    refine h.begins (grouping (expressionAt depth)) (by simp [primary?, h.kind]) fun next hnext => ?_
    refine (hinner.loosest (hsayable.part hsayable.grammatical hsayable.limits (Subset.refl _))
      (follows_of_kind rfl rfl _ rfl) hnext).bind ?_
    rintro tree middle ⟨htree, hmiddle⟩
    exact hmiddle.consume.bind fun _ _ hafter => hafter.pure ⟨htree, hafter⟩
  | array items =>
    simp only [Phrase.words, cons_append, append_assoc, nil_append] at h
    simp only [Phrase.words, length_append, length_cons, length_tail] at hparts hdepth
    have hitems : ∀ item ∈ items, Complete depth item := fun item hitem => hparts item (by
      have hshorter := length_words_le_commaWords hitem
      omega)
    have hsteps : items.length ≤ depth := by
      have hshorter := length_le_commaWords items
      omega
    refine h.begins (array (expressionAt depth) depth) (by simp [primary?, h.kind]) fun next hnext => ?_
    exact listed_complete (fun _ _ _ _ => id) hitems
      (hsayable.items hsayable.grammatical hsayable.limits (Subset.refl _)) rfl rfl (by decide) rfl hsteps
      (Nat.le_refl _) hnext fun trees _ _ htrees hafter => ⟨by simp [htrees], hafter⟩
  | unary op inner =>
    obtain ⟨hlevel, hgrammatical⟩ := hsayable.grammatical
    refine h.begins (unary (expressionAt depth) op) (by cases op <;> simp [primary?, h.kind, UnaryOp.sign]) fun next hnext => ?_
    refine (hparts inner (by simp) (hsayable.part hgrammatical hsayable.limits (Subset.refl _)) hlevel (by decide)
      (hfollows rfl) hnext).bind ?_
    rintro tree middle ⟨htree, hmiddle⟩
    exact hmiddle.alloc fun _ _ hafter => ⟨by simp [htree], hafter⟩
  | assign => exact absurd rfl hvalue
  | _ => contradiction

end

/-! ### The loop over the operators -/

section

variable {depth steps : Nat} {precedence : Precedence} {context : Context} {before : State} {rest : List Grammar.Word}
  {tree : Tree} {post : Tree → State → Prop}

theorem Awaits.endClimb {operand : Precedence → Parser Tree} (h : Awaits context rest before)
    (hends : ∀ operator, ofToken? (headKind rest) = some operator → ¬ precedence ≤ operator.precedence)
    (hpost : post tree before) : Succeeds (climb operand depth precedence steps tree) before post := by
  cases steps with
  | zero => exact h.pure hpost
  | succ steps =>
    unfold climb
    rw [parser_enter, succeeds_get_bind, h.kind]
    split
    · exact h.pure hpost
    · rename_i operator hoperator
      rw [if_neg (hends operator hoperator)]
      exact h.pure hpost

theorem Awaits.climb {operand : Precedence → Parser Tree} {operator : Operator}
    (h : Awaits context (word :: rest) before) (hoperator : ofToken? word.kind = some operator)
    (hbinds : precedence ≤ operator.precedence)
    (hfollow : ∀ next, Awaits context rest next → Succeeds (follow operand depth (precedence ≤ .assignment) operator tree) next
      fun whole after => Succeeds (climb operand depth precedence steps whole) after post) :
    Succeeds (climb operand depth precedence (steps + 1) tree) before post := by
  unfold Parser.climb
  rw [parser_enter, succeeds_get_bind, h.kind, headKind_cons, hoperator]
  simp only [if_pos hbinds]
  exact h.skip.bind fun _ next hnext => (hfollow next hnext).bind fun _ _ => id

/-- The first operand is read, and then the loop over the operators, for so many steps. -/
def Opens (depth : Nat) (precedence : Precedence) (steps : Nat) (before : State) (post : Tree → State → Prop) : Prop :=
  Succeeds advance before fun _ next => ∃ reader, primary? (expressionAt depth) depth before.current = some reader ∧
    Succeeds reader next fun first front => Succeeds (climb (expressionAt depth) depth precedence steps first) front post

/-- The loop gets to the whole phrase: it is enough to know how it goes on from there. -/
def Reaches (depth : Nat) (precedence : Precedence) (context : Context) (phrase : Phrase) (rest : List Grammar.Word)
    (before : State) : Prop :=
  ∀ ⦃steps : Nat⦄ ⦃post : Tree → State → Prop⦄, phrase.words.length ≤ steps →
    (∀ steps' tree state, steps ≤ steps' + phrase.words.length → Yields context phrase rest tree state →
      Succeeds (climb (expressionAt depth) depth precedence steps' tree) state post) →
    Opens depth precedence steps before post

theorem Begins.reaches {phrase : Phrase} (h : Begins depth context phrase rest before) (precedence : Precedence) :
    Reaches depth precedence context phrase rest before := by
  intro steps post _ hclimb
  refine h.mono ?_
  rintro _ next ⟨reader, hreader, hreads⟩
  exact ⟨reader, hreader, hreads.mono fun tree state => hclimb steps tree state (Nat.le_add_right _ _)⟩

theorem Reaches.follow {phrase : Phrase} {link : Link} (hlink : phrase.link? = some link)
    (hleft : Reaches depth precedence context link.left (link.word :: (link.behind ++ rest)) before)
    (hbinds : precedence ≤ link.operator.precedence)
    (hfollow : ∀ leftTree next, leftTree.bare = link.left.tree context.scope → Awaits context (link.behind ++ rest) next →
      Succeeds (follow (expressionAt depth) depth (precedence ≤ .assignment) link.operator leftTree) next
        (Yields context phrase rest)) : Reaches depth precedence context phrase rest before := by
  intro steps post hsteps hclimb
  have hlengths := congrArg length (words_of_link? hlink)
  simp only [length_append, length_cons] at hlengths
  refine hleft (by omega) ?_
  rintro steps' leftTree front hsteps' ⟨htree, hfront⟩
  obtain ⟨steps', rfl⟩ := Nat.exists_eq_add_one_of_ne_zero (show steps' ≠ 0 by omega)
  refine hfront.climb (operator_of_link? hlink) hbinds fun next hnext => ?_
  exact (hfollow leftTree next htree hnext).mono fun tree state => hclimb steps' tree state (by omega)

end

/-! ### Operators -/

/-- What stands between a phrase and the operator behind it: nothing that the loop would take for something else. -/
structure Approached (precedence : Precedence) (phrase : Phrase) (rest : List Grammar.Word) : Prop where
  level : precedence ≤ phrase.level
  settled : ∀ operator, ofToken? (headKind rest) = some operator → operator.leftRung ≤ phrase.level
  quiet : precedence ≤ .assignment → phrase.level ≠ .primary → assignmentOp? (headKind rest) = none

/-- The left operand of an operator is approached if it stands where the operator wants it. -/
theorem approached_of_operator {precedence : Precedence} {left : Phrase} {more : List Grammar.Word}
    {operator : Operator} (hoperator : ofToken? word.kind = some operator)
    (hrung : operator.leftRung ≤ left.level) (hlevel : precedence ≤ operator.leftRung) :
    Approached precedence left (word :: more) := by
  refine ⟨le_trans hlevel hrung, fun other hother => ?_, fun _ _ => ?_⟩
  · rw [headKind_cons, hoperator] at hother
    exact Option.some.inj hother ▸ hrung
  · rw [headKind_cons]
    revert hoperator
    cases word.kind <;> simp [ofToken?, assignmentOp?]

section

variable {depth : Nat} {precedence : Precedence} {context : Context} {phrase left : Phrase} {before : State}
  {leftTree : Tree} {rest : List Grammar.Word}

/-- An operator that cannot follow the phrase does not follow its last operand either. -/
theorem Approached.follows (h : Approached precedence phrase rest) {rung : Precedence} (htighter : ¬ rung ≤ .assignment)
    (hrung : ∀ operator : Operator, operator.leftRung ≤ phrase.level → ¬ rung ≤ operator.precedence) : Follows rung rest :=
  ⟨fun operator hoperator => hrung operator (h.settled operator hoperator), fun hloose => absurd hloose htighter⟩

theorem Approached.followsAssignment (h : Approached precedence phrase rest) (hlevel : phrase.level = .assignment) :
    Follows .assignment rest := by
  have hloosest := h.level
  rw [hlevel] at hloosest
  refine ⟨fun operator hoperator _ => ?_, fun _ => h.quiet hloosest (by rw [hlevel]; decide)⟩
  have hor := le_trans operator.or_le_leftRung (h.settled operator hoperator)
  rw [hlevel] at hor
  exact absurd hor (by decide)

theorem readsItems_argument (depth : Nat) : ReadsItems (argument (expressionAt depth)) depth maxArguments := by
  intro items before post hroom h
  have hcount : ¬ (items.length == maxArguments) = true := by
    simp only [beq_iff_eq]
    omega
  unfold argument
  rwa [if_neg hcount]

theorem Awaits.noAssignment (h : Awaits context rest before)
    (hquiet : precedence ≤ .assignment → assignmentOp? (headKind rest) = none) :
    (decide (precedence ≤ .assignment) && before.check .eq) = false := by
  rw [Bool.and_eq_false_imp, h.check]
  intro hloosest
  rw [beq_eq_false_iff_ne]
  intro hsign
  have hnone := hquiet (of_decide_eq_true hloosest)
  rw [hsign] at hnone
  contradiction

section

variable (hleft : leftTree.bare = left.tree context.scope)

include hleft

theorem binary_complete {op : BinaryOp} {right : Phrase} (hright : Complete depth right)
    (hsayable : Sayable context.scope (.binary op left right)) (happroached : Approached precedence (.binary op left right) rest)
    (h : Awaits context (right.words ++ rest) before) :
    Succeeds (binary (expressionAt depth) op leftTree) before (Yields context (.binary op left right) rest) := by
  obtain ⟨-, hlevel, hgrammatical⟩ := hsayable.grammatical
  have hfollows : Follows op.rung.next rest := happroached.follows (by cases op <;> decide) fun operator hrung =>
    not_next_le op.rung_le_unary (le_trans operator.precedence_le_leftRung hrung)
  rw [binary, precedence_binary]
  refine (hright (hsayable.part hgrammatical hsayable.limits.2 (by simp)) hlevel op.next_rung_le_unary hfollows h).bind ?_
  rintro rightTree middle ⟨hright, hmiddle⟩
  exact hmiddle.alloc fun _ _ hafter => ⟨by simp [hleft, hright], hafter⟩

theorem ternary_complete {mark : TernaryMark} {positive negative : Phrase} (hpositive : Complete depth positive)
    (hnegative : Complete depth negative) (hsayable : Sayable context.scope (.ternary mark left positive negative))
    (happroached : Approached precedence (.ternary mark left positive negative) rest)
    (h : Awaits context (positive.words ++ sign .colon :: (negative.words ++ rest)) before) :
    Succeeds (ternary (expressionAt depth) leftTree) before (Yields context (.ternary mark left positive negative) rest) := by
  obtain ⟨-, ⟨hlevel, hgrammatical⟩, hlevel', hgrammatical'⟩ := hsayable.grammatical
  obtain ⟨-, hlimits, hlimits'⟩ := hsayable.limits
  have hfollows : Follows .ternary rest := happroached.follows (by decide) fun operator hrung =>
    absurd (le_trans operator.or_le_leftRung hrung) (by simp only [Phrase.level]; decide)
  refine (hpositive (hsayable.part hgrammatical hlimits (by simp)) hlevel (by decide) (follows_of_kind rfl rfl _ rfl) h).bind ?_
  rintro positiveTree front ⟨hpositive, hfront⟩
  refine hfront.consume.bind fun _ next hnext => ?_
  refine (hnegative (hsayable.part hgrammatical' hlimits' (by simp)) hlevel' (by decide) hfollows hnext).bind ?_
  rintro negativeTree middle ⟨hnegative, hmiddle⟩
  exact hmiddle.alloc fun _ _ hafter => ⟨by simp [hleft, hpositive, hnegative], hafter⟩

theorem call_complete {arguments : List Phrase} (harguments : ∀ item ∈ arguments, Complete depth item)
    (hsteps : arguments.length ≤ depth) (hsayable : Sayable context.scope (.call left arguments))
    (h : Awaits context ((commaWords arguments).tail ++ sign .rparen :: rest) before) :
    Succeeds (call (expressionAt depth) depth leftTree) before (Yields context (.call left arguments) rest) := by
  obtain ⟨-, hcount, hlimits⟩ := hsayable.limits
  exact listed_complete (readsItems_argument depth) harguments
    (hsayable.items hsayable.grammatical.2 hlimits (by simp)) rfl rfl (by decide) rfl hsteps hcount h
    fun trees _ _ htrees hafter => ⟨by simp [hleft, htrees], hafter⟩

theorem get_complete (hsayable : Sayable context.scope (.get left name))
    (hquiet : precedence ≤ .assignment → assignmentOp? (headKind rest) = none)
    (h : Awaits context (identifier name :: rest) before) :
    Succeeds (dot (expressionAt depth) (precedence ≤ .assignment) leftTree) before (Yields context (.get left name) rest) := by
  refine h.consumeName.bind ?_
  rintro _ named ⟨rfl, hnamed⟩
  simp only [parser_liftM]
  rw [succeeds_previous_bind, intern_of_nameable hsayable.limits.2, pure_bind, succeeds_check_bind, hnamed.noAssignment hquiet]
  exact hnamed.alloc fun _ _ hafter => ⟨by simp [hleft], hafter⟩

theorem set_complete {value : Phrase} (hvalue : Complete depth value)
    (hsayable : Sayable context.scope (.set left name value)) (hloosest : precedence ≤ .assignment)
    (hfollows : Follows .assignment rest)
    (h : Awaits context (identifier name :: sign .eq :: (value.words ++ rest)) before) :
    Succeeds (dot (expressionAt depth) (precedence ≤ .assignment) leftTree) before
      (Yields context (.set left name value) rest) := by
  obtain ⟨-, hname, hlimits⟩ := hsayable.limits
  refine h.consumeName.bind ?_
  rintro _ named ⟨rfl, hnamed⟩
  have hgoes : (decide (precedence ≤ .assignment) && named.check .eq) = true := by simp [hloosest, hnamed.check]
  simp only [parser_liftM]
  rw [succeeds_previous_bind, intern_of_nameable hname, pure_bind, succeeds_check_bind, hgoes]
  refine hnamed.skip.bind fun _ assigned hassigned => ?_
  refine (hvalue.loosest (hsayable.part hsayable.grammatical.2 hlimits (by simp)) hfollows hassigned).bind ?_
  rintro valueTree middle ⟨hvalue, hmiddle⟩
  exact hmiddle.alloc fun _ _ hafter => ⟨by simp [hleft, hvalue], hafter⟩

theorem index_complete {position : Phrase} (hposition : Complete depth position)
    (hsayable : Sayable context.scope (.index left position))
    (hquiet : precedence ≤ .assignment → assignmentOp? (headKind rest) = none)
    (h : Awaits context (position.words ++ sign .rbracket :: rest) before) :
    Succeeds (index (expressionAt depth) (precedence ≤ .assignment) leftTree) before
      (Yields context (.index left position) rest) := by
  refine (hposition.loosest (hsayable.part hsayable.grammatical.2 hsayable.limits.2 (by simp))
    (follows_of_kind rfl rfl _ rfl) h).bind ?_
  rintro positionTree middle ⟨hposition, hmiddle⟩
  refine hmiddle.consume.bind fun _ closed hclosed => ?_
  rw [parser_liftM, succeeds_check_bind, hclosed.noAssignment hquiet]
  exact hclosed.alloc fun _ _ hafter => ⟨by simp [hleft, hposition], hafter⟩

theorem setIndex_complete {position value : Phrase} (hposition : Complete depth position) (hvalue : Complete depth value)
    (hsayable : Sayable context.scope (.setIndex left position value)) (hloosest : precedence ≤ .assignment)
    (hfollows : Follows .assignment rest)
    (h : Awaits context (position.words ++ sign .rbracket :: sign .eq :: (value.words ++ rest)) before) :
    Succeeds (index (expressionAt depth) (precedence ≤ .assignment) leftTree) before
      (Yields context (.setIndex left position value) rest) := by
  obtain ⟨-, hgrammatical, hgrammatical'⟩ := hsayable.grammatical
  obtain ⟨-, hlimits, hlimits'⟩ := hsayable.limits
  refine (hposition.loosest (hsayable.part hgrammatical hlimits (by simp)) (follows_of_kind rfl rfl _ rfl) h).bind ?_
  rintro positionTree middle ⟨hposition, hmiddle⟩
  refine hmiddle.consume.bind fun _ closed hclosed => ?_
  have hgoes : (decide (precedence ≤ .assignment) && closed.check .eq) = true := by simp [hloosest, hclosed.check]
  rw [parser_liftM, succeeds_check_bind, hgoes]
  refine hclosed.skip.bind fun _ assigned hassigned => ?_
  refine (hvalue.loosest (hsayable.part hgrammatical' hlimits' (by simp)) hfollows hassigned).bind ?_
  rintro valueTree last ⟨hvalue, hlast⟩
  exact hlast.alloc fun _ _ hafter => ⟨by simp [hleft, hposition, hvalue], hafter⟩

end

/-- What an operator takes behind it is read, and the whole phrase made. -/
theorem follow_complete {link : Link} (hlink : phrase.link? = some link)
    (hparts : ∀ part : Phrase, part.words.length < phrase.words.length → Complete depth part)
    (hdepth : phrase.words.length ≤ depth) (hsayable : Sayable context.scope phrase)
    (happroached : Approached precedence phrase rest) (hleft : leftTree.bare = link.left.tree context.scope)
    (h : Awaits context (link.behind ++ rest) before) :
    Succeeds (follow (expressionAt depth) depth (precedence ≤ .assignment) link.operator leftTree) before
      (Yields context phrase rest) := by
  cases phrase <;> cases hlink <;> simp only [append_assoc, cons_append, nil_append] at h
  all_goals
    simp only [Phrase.words, length_append, length_cons, length_tail, length_nil] at hparts hdepth
  · exact binary_complete hleft (hparts _ (by omega)) hsayable happroached h
  · exact ternary_complete hleft (hparts _ (by omega)) (hparts _ (by omega)) hsayable happroached h
  · rename_i callee arguments
    have hshorter := length_le_commaWords arguments
    refine call_complete hleft (fun item hitem => hparts item ?_) (by omega) hsayable h
    have hshorter' := length_words_le_commaWords hitem
    omega
  · exact get_complete hleft hsayable (fun hloosest => happroached.quiet hloosest (by simp [Phrase.level])) h
  · exact index_complete hleft (hparts _ (by omega)) hsayable
      (fun hloosest => happroached.quiet hloosest (by simp [Phrase.level])) h
  · exact set_complete hleft (hparts _ (by omega)) hsayable happroached.level (happroached.followsAssignment rfl) h
  · exact setIndex_complete hleft (hparts _ (by omega)) (hparts _ (by omega)) hsayable happroached.level
      (happroached.followsAssignment rfl) h

/-- Every phrase that is no assignment to a variable is reached, if its parts can be read. The recursion goes to the left
operand, the other parts are shorter. -/
theorem reaches_of_awaits (phrase : Phrase) {rest : List Grammar.Word}
    (hparts : ∀ part : Phrase, part.words.length < phrase.words.length → Complete depth part)
    (hdepth : phrase.words.length ≤ depth) (hsayable : Sayable context.scope phrase)
    (hvalue : phrase.level = .assignment → phrase.link?.isSome) (happroached : Approached precedence phrase rest)
    (h : Awaits context (phrase.words ++ rest) before) : Reaches depth precedence context phrase rest before := by
  match hlink : phrase.link? with
  | none =>
    refine (begins_of_awaits hparts hdepth hsayable hlink (fun hlevel => ?_) (fun hlevel => ?_) h).reaches precedence
    · simp [hlink] at hvalue
      exact hvalue hlevel
    · exact happroached.follows (by decide) fun operator hrung => not_unary_le (hlevel ▸ hrung)
  | some link =>
    have hwords := words_of_link? hlink
    have hshorter : link.left.words.length < phrase.words.length := by
      rw [hwords]
      simp
    obtain ⟨hsayable', hrung⟩ := hsayable.left hlink
    have hbinds := le_trans happroached.level (level_of_link? hlink)
    refine .follow hlink (reaches_of_awaits link.left (fun part hpart => hparts part (by omega)) (by omega) hsayable' ?_
      (approached_of_operator (operator_of_link? hlink) hrung
        (le_trans hbinds link.operator.precedence_le_leftRung)) ?_) hbinds
      fun leftTree next hleft hnext => follow_complete hlink hparts hdepth hsayable happroached hleft hnext
    · intro hlevel
      have hor := le_trans link.operator.or_le_leftRung hrung
      rw [hlevel] at hor
      exact absurd hor (by decide)
    · rw [hwords, append_assoc] at h
      exact h
termination_by phrase.words.length

end

/-! ### The whole of it -/

section

variable {depth : Nat} {precedence : Precedence} {context : Context} {before : State} {rest : List Grammar.Word}

/-- What is reached is read, and the reader goes on to look for an assignment. -/
theorem Reaches.reads {phrase : Phrase} {post : Tree → State → Prop} (h : Reaches depth precedence context phrase rest before)
    (hdepth : phrase.words.length ≤ depth)
    (hends : ∀ operator, ofToken? (headKind rest) = some operator → ¬ precedence ≤ operator.precedence)
    (hpost : ∀ tree state, Yields context phrase rest tree state →
      Succeeds (if precedence ≤ .assignment then assignment (expressionAt depth) tree else return tree) state post) :
    Succeeds (expressionAt (depth + 1) precedence) before post := by
  have hopens : Opens depth precedence depth before fun tree state =>
      Succeeds (if precedence ≤ .assignment then assignment (expressionAt depth) tree else return tree) state post :=
    h hdepth fun steps tree state _ hyields => hyields.2.endClimb hends (hpost tree state hyields)
  obtain ⟨_, next, hadvance, reader, hreader, first, front, hread, climbed, middle, hclimb, result, after, hreads, hresult⟩ :=
    hopens
  exact ⟨result, after,
    reads_expressionAt.2 ⟨next, reader, first, front, climbed, middle, hadvance, hreader, hread, hclimb, hreads⟩, hresult⟩

/-- A variable in parentheses is a primary, and its tree is that of the variable. -/
theorem of_target? {phrase : Phrase} {name : String} (hname : phrase.target? = some name) (scope : Scope) :
    phrase.level = .primary ∧ phrase.Grammatical ∧ phrase.tree scope = .var .blank name (scope.resolve name) := by
  match phrase with
  | .use _ =>
    obtain rfl := Option.some.inj hname
    exact ⟨rfl, trivial, rfl⟩
  | .group inner =>
    obtain ⟨-, hgrammatical, htree⟩ := @of_target? inner _ hname scope
    exact ⟨rfl, hgrammatical, htree⟩

theorem eq_var_of_bare {tree : Tree} {symbol : Symbol} (hbare : tree.bare = .var .blank name symbol) :
    ∃ note, tree = .var note name symbol := by
  cases tree <;> simp only [Tree.bare, Tree.var.injEq, reduceCtorEq] at hbare
  obtain ⟨-, rfl, rfl⟩ := hbare
  exact ⟨_, rfl⟩

theorem assign_complete {target value : Phrase} {mark : AssignmentSign}
    (hparts : ∀ part : Phrase, part.words.length < (assign target mark value).words.length → Complete depth part)
    (hdepth : (assign target mark value).words.length ≤ depth)
    (hsayable : Sayable context.scope (.assign target mark value)) (hfollows : Follows .assignment rest)
    (h : Awaits context ((assign target mark value).words ++ rest) before) :
    Succeeds (expressionAt (depth + 1) .assignment) before (Yields context (.assign target mark value) rest) := by
  simp only [Phrase.words, append_assoc, cons_append] at h
  simp only [Phrase.words, length_append, length_cons] at hparts hdepth
  obtain ⟨htarget, hgrammatical⟩ := hsayable.grammatical
  obtain ⟨name, hname⟩ := Option.isSome_iff_exists.1 htarget
  obtain ⟨hlevel, htarget', htree⟩ := of_target? hname context.scope
  have hnone : ofToken? mark.kind = none := by cases mark <;> rfl
  have happroached : Approached .assignment target (sign mark.kind :: (value.words ++ rest)) :=
    ⟨target.level.assignment_le, by simp [hnone], fun _ hother => absurd hlevel hother⟩
  refine (reaches_of_awaits target (fun part hpart => hparts part (by omega)) (by omega)
    (hsayable.part htarget' hsayable.limits.1 (by simp)) (by simp [hlevel]) happroached h).reads (by omega) (by simp [hnone]) ?_
  rintro tree state ⟨hbare, hstate⟩
  obtain ⟨note, rfl⟩ := eq_var_of_bare (hbare.trans htree)
  rw [if_pos (by decide), assignment, succeeds_get_bind, hstate.kind, headKind_cons, kind_sign,
    AssignmentSign.assignmentOp?_kind]
  refine hstate.skip.bind fun _ next hnext => ?_
  refine ((hparts value (by omega)).loosest (hsayable.part hgrammatical hsayable.limits.2 (by simp)) hfollows hnext).bind ?_
  rintro valueTree middle ⟨hvalue, hmiddle⟩
  cases hop : mark.op with
  | none => exact hmiddle.alloc fun _ _ hafter => ⟨by simp [AssignmentSign.tree, hop, hname, hvalue], hafter⟩
  | some op =>
    refine hmiddle.node.bind ?_
    rintro _ first ⟨⟨_, rfl⟩, hfirst⟩
    refine hfirst.node.bind ?_
    rintro _ second ⟨⟨_, rfl⟩, hsecond⟩
    exact hsecond.alloc fun _ _ hafter => ⟨by simp [AssignmentSign.tree, hop, hname, hvalue], hafter⟩

end

/-- Every phrase is read wherever its text is ahead, if there is depth enough for its words. -/
theorem complete (depth : Nat) (phrase : Phrase) (hdepth : phrase.words.length < depth) : Complete depth phrase := by
  induction depth generalizing phrase with
  | zero => omega
  | succ depth ih =>
    intro context precedence before rest hsayable hlevel hprecedence hfollows h
    have hparts : ∀ part : Phrase, part.words.length < phrase.words.length → Complete depth part := fun part hpart =>
      ih part (by omega)
    by_cases hassign : ∃ target mark value, phrase = .assign target mark value
    · obtain ⟨target, mark, value, rfl⟩ := hassign
      obtain rfl := precedence.eq_assignment_of_le hlevel
      exact assign_complete hparts (by omega) hsayable hfollows h
    · have hvalue : phrase.level = .assignment → phrase.link?.isSome := by
        intro hlevel'
        cases phrase <;> first
          | rfl
          | contradiction
          | exact absurd ⟨_, _, _, rfl⟩ hassign
      have happroached : Approached precedence phrase rest :=
        ⟨hlevel, fun operator hoperator =>
          le_trans (leftRung_le_of_not_le (hfollows.operator operator hoperator)) hlevel,
          fun hloosest _ => hfollows.assignment hloosest⟩
      refine (reaches_of_awaits phrase hparts (by omega) hsayable hvalue happroached h).reads (by omega) hfollows.operator ?_
      rintro tree state ⟨htree, hstate⟩
      split
      · rename_i hloosest
        rw [assignment, succeeds_get_bind, hstate.kind, hfollows.assignment hloosest]
        exact hstate.pure ⟨htree, hstate⟩
      · exact hstate.pure ⟨htree, hstate⟩

end Parser

end NanScript
