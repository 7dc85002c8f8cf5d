import Mathlib.Data.List.Forall2
import NanScript.Proofs.Parser.Standing

/-!
# Expressions that are read are phrases

Whatever `expressionAt` reads without a report is the text of a phrase of the grammar, on the rung it was asked for, and
the tree is that of the phrase. The readers of the single forms are treated one by one, for any reader of operands of
which the same is known; `expressionAt` follows by induction on its depth.

The depth is a bound on the nesting, and nothing is reported when it is used up. It never is: each level of nesting has
read a token of its own, so the depth stays above the number of words ahead.
-/

namespace NanScript

open Operator Token List

theorem Precedence.le_trans {first second third : Precedence} (h : first ≤ second) (h' : second ≤ third) :
    first ≤ third := Nat.le_trans h h'

theorem Precedence.le_primary (precedence : Precedence) : precedence ≤ .primary := by
  cases precedence <;> decide

theorem Precedence.assignment_le (precedence : Precedence) : .assignment ≤ precedence := by
  cases precedence <;> decide

theorem Precedence.eq_assignment_of_le (precedence : Precedence) (h : precedence ≤ .assignment) :
    precedence = .assignment := by
  revert h
  cases precedence <;> decide

variable {rung : Precedence}

/-- The right operand of an operator stops in front of the operators of its own rung. -/
theorem Precedence.le_of_not_next_le {other : Precedence} (hrung : rung ≤ .unary) (h : ¬ rung.next ≤ other) :
    other ≤ rung := by
  revert hrung h
  cases rung <;> cases other <;> decide

/-- An operator on its own rung or a looser one is not taken by its right operand. -/
theorem Precedence.not_next_le {other : Precedence} (hrung : rung ≤ .unary) (h : other ≤ rung) :
    ¬ rung.next ≤ other := by
  revert hrung h
  cases rung <;> cases other <;> decide

/-- The rung that an operator wants of the operand in front of it. -/
def Operator.leftRung : Operator → Precedence
  | ternary => .or
  | operator => operator.precedence

theorem Operator.leftRung_le_call (operator : Operator) : operator.leftRung ≤ .call := by
  cases operator with
  | binary op => cases op <;> decide
  | _ => decide

theorem Operator.precedence_le_leftRung (operator : Operator) : operator.precedence ≤ operator.leftRung := by
  cases operator with
  | binary op => exact Nat.le_refl _
  | _ => decide

theorem Operator.or_le_leftRung (operator : Operator) : .or ≤ operator.leftRung := by
  cases operator with
  | binary op => cases op <;> decide
  | _ => decide

variable {operator : Operator} {precedence : Precedence}

theorem Operator.not_unary_le (h : operator.leftRung ≤ .unary) : ¬ .unary ≤ operator.precedence := by
  revert h
  cases operator with
  | binary op => cases op <;> decide
  | _ => decide

theorem Operator.leftRung_le (hrung : .or ≤ rung) (hlooser : operator.precedence ≤ rung) :
    operator.leftRung ≤ rung := by
  cases operator with
  | ternary => exact hrung
  | _ => exact hlooser

/-- An operator that is too loose to be read here takes what has been read as its left operand. -/
theorem Operator.leftRung_le_of_not_le (hloose : ¬ precedence ≤ operator.precedence) :
    operator.leftRung ≤ precedence := by
  cases operator with
  | ternary => cases precedence <;> revert hloose <;> decide
  | _ => exact Nat.le_of_not_le hloose

theorem BinaryOp.rung_le_unary (op : BinaryOp) : op.rung ≤ .unary := by
  cases op <;> decide

theorem BinaryOp.next_rung_le_unary (op : BinaryOp) : op.rung.next ≤ .unary := by
  cases op <;> decide

theorem BinaryOp.or_le_rung (op : BinaryOp) : .or ≤ op.rung := by
  cases op <;> decide

variable {kind : TokenKind}

theorem Operator.eq_lparen_of_ofToken? (hoperator : ofToken? kind = some .call) : kind = .lparen := by
  cases kind <;> simp [ofToken?] at hoperator
  rfl

theorem Operator.eq_lbracket_of_ofToken? (hoperator : ofToken? kind = some .index) : kind = .lbracket := by
  cases kind <;> simp [ofToken?] at hoperator
  rfl

theorem Operator.eq_dot_of_ofToken? (hoperator : ofToken? kind = some .dot) : kind = .dot := by
  cases kind <;> simp [ofToken?] at hoperator
  rfl

theorem Operator.isSign_of_ofToken? (hoperator : ofToken? kind = some operator) : Parser.IsSign kind := by
  cases kind <;> first
    | decide
    | simp [ofToken?] at hoperator

theorem Operator.ternary_le_precedence (operator : Operator) : .ternary ≤ operator.precedence := by
  cases operator with
  | binary op => cases op <;> decide
  | _ => decide

namespace Parser

open Grammar State

set_option synthInstance.maxSize 1000

/-- A tree is that of a phrase that keeps to all rules, with names looked up in `scope`. -/
structure Spelled (scope : Scope) (phrase : Phrase) (tree : Tree) : Prop where
  tree : tree.bare = phrase.tree scope
  grammatical : phrase.Grammatical
  limits : phrase.WithinLimits
  known : ∀ name ∈ phrase.names, scope.isUninitialized name = false

/-- Words begin with a phrase whose tree has been made, and the parser stands behind it. What else is known of the phrase
and of the word behind it is up to `also`. -/
def Phrased (context : Context) (words : List Grammar.Word) (tree : Tree) (after : State) (also : Phrase → TokenKind → Prop) :
    Prop :=
  ∃ phrase rest, words = phrase.words ++ rest ∧ Stands context rest after ∧ Spelled context.scope phrase tree ∧
    also phrase (headKind rest)

/-- No operator that a reader at `precedence` would take comes next. -/
def Ends (precedence : Precedence) (kind : TokenKind) : Prop :=
  ∀ operator, ofToken? kind = some operator → ¬ precedence ≤ operator.precedence

/-- A reader of operands reads phrases, as long as fewer than `bound` words are ahead. A reader at the loosest rung takes an
assignment as well. -/
def OperandSound (operand : Precedence → Parser Tree) (bound : Nat) : Prop :=
  ∀ {precedence : Precedence} {context : Context} {ahead : List Grammar.Word} {before after : State} {tree : Tree},
    Stands context ahead before → ahead.length < bound → precedence ≤ .unary → Reads (operand precedence) before tree after →
    Phrased context ahead tree after fun phrase kind => precedence ≤ phrase.level ∧ Ends precedence kind ∧
      (precedence ≤ .assignment → assignmentOp? kind = none)

/-- Every operator that may come next can have the phrase as its left operand. -/
def Settled (phrase : Phrase) (kind : TokenKind) : Prop :=
  ∀ operator, ofToken? kind = some operator → operator.leftRung ≤ phrase.level

variable {phrase : Phrase}

theorem settled_of_primary (hlevel : phrase.level = .primary) (kind : TokenKind) : Settled phrase kind := by
  intro operator _
  rw [hlevel]
  exact operator.leftRung.le_primary

/-- Every operator takes a call, a property or an element as its left operand. -/
theorem settled_of_call (hlevel : phrase.level = .call) (kind : TokenKind) : Settled phrase kind := by
  intro operator _
  rw [hlevel]
  exact operator.leftRung_le_call

/-- Behind an assignment there is no operator. -/
theorem settled_of_ends {kind : TokenKind} (hends : Ends .assignment kind) : Settled phrase kind := by
  intro operator hoperator
  exact absurd operator.precedence.assignment_le (hends operator hoperator)

section

variable {operand : Precedence → Parser Tree} {bound steps : Nat} {context : Context} {ahead : List Grammar.Word}
  {before after : State} {tree : Tree}

/-! ### Lists of phrases -/

section

variable {round : Activity} {item : List Tree → Parser Tree} [∀ items, Honest (item items)]
  (hitem : ∀ {items : List Tree} {before after : State} {tree : Tree},
    Reads (item items) before tree after → Reads (operand .assignment) before tree after)
  (hoperand : OperandSound operand bound) (hbefore : Stands context ahead before) (hlength : ahead.length < bound)
  (hsteps : ahead.length < steps)

include hitem hoperand hbefore hlength hsteps

theorem sepByBackward_sound {items result : List Tree} (hreads : Reads (sepByBackward round item steps items) before result after) :
    ∃ phrases trees rest, ahead = (Phrase.commaWords phrases).tail ++ rest ∧ Stands context rest after ∧
      Forall₂ (Spelled context.scope) phrases trees ∧ phrases ≠ [] ∧ result = trees.reverse ++ items := by
  induction steps generalizing before ahead items with
  | zero => omega
  | succ steps ih =>
    obtain ⟨tree, middle, hread, hreads⟩ := reads_bind.1 hreads
    obtain ⟨phrase, rest, rfl, hmiddle, hphrase, -⟩ := hoperand hbefore hlength (by decide) (hitem hread)
    rcases reads_accept_bind.1 hreads with ⟨hcomma, next, hadvance, hreads⟩ | ⟨-, hreads⟩
    · obtain ⟨rest, rfl, hnext⟩ := hmiddle.sign hcomma (by decide) hadvance
      simp only [length_append, length_cons] at hlength hsteps
      obtain ⟨phrases, trees, rest, rfl, hafter, hphrases, hnonempty, rfl⟩ := ih hnext (by omega) (by omega) hreads
      refine ⟨phrase :: phrases, tree :: trees, rest, ?_, hafter, .cons hphrase hphrases, by simp, by simp⟩
      obtain ⟨second, others, rfl⟩ := exists_cons_of_ne_nil hnonempty
      simp
    · obtain ⟨-, rfl, rfl⟩ := reads_pure.1 hreads
      exact ⟨[phrase], [tree], rest, by simp, hmiddle, .cons hphrase .nil, by simp, rfl⟩

theorem listed_sound {close : TokenKind} {what : String} {make : List Tree → Note → Tree} (hclose : IsSign close)
    (hreads : Reads (do
      let items ← if ← check close then pure [] else sepBy round item steps []
      consume close what
      link items
      alloc (make items)) before tree after) :
    ∃ phrases trees rest note, ahead = (Phrase.commaWords phrases).tail ++ sign close :: rest ∧ Stands context rest after ∧
      Forall₂ (Spelled context.scope) phrases trees ∧ tree = make trees note ∧
      (trees = [] ∨ ∃ result middle, Reads (sepByBackward round item steps []) before result middle ∧ trees = result.reverse) := by
  have hlist : ∃ phrases trees rest middle, ahead = (Phrase.commaWords phrases).tail ++ rest ∧ Stands context rest middle ∧
      Forall₂ (Spelled context.scope) phrases trees ∧
      (trees = [] ∨ ∃ result middle, Reads (sepByBackward round item steps []) before result middle ∧ trees = result.reverse) ∧
      Reads (do
        consume close what
        link trees
        alloc (make trees)) middle tree after := by
    rw [reads_check_bind] at hreads
    rcases reads_ite.1 hreads with ⟨-, hreads⟩ | ⟨-, hreads⟩
    · exact ⟨[], [], ahead, before, rfl, hbefore, .nil, .inl rfl, hreads⟩
    · obtain ⟨_, middle, hlist, hreads⟩ := reads_bind.1 hreads
      obtain ⟨result, _, hread, hlist⟩ := reads_bind.1 hlist
      obtain ⟨-, rfl, rfl⟩ := reads_pure.1 hlist
      obtain ⟨phrases, trees, rest, rfl, hmiddle, hphrases, -, rfl⟩ :=
        sepByBackward_sound hitem hoperand hbefore hlength hsteps hread
      exact ⟨phrases, _, rest, _, rfl, hmiddle, by simpa using hphrases, .inr ⟨_, _, hread, rfl⟩, hreads⟩
  obtain ⟨phrases, trees, rest, middle, rfl, hmiddle, hphrases, hcount, hreads⟩ := hlist
  obtain ⟨rest, closed, rfl, hclosed, hreads⟩ := hmiddle.consume hclose hreads
  obtain ⟨linked, hlinked, hreads⟩ := hclosed.link hreads
  obtain ⟨note, rfl, hafter⟩ := hlinked.alloc hreads
  exact ⟨phrases, trees, rest, note, rfl, hafter, hphrases, rfl, hcount⟩

end

theorem spelled_all {scope : Scope} {phrases : List Phrase} {trees : List Tree}
    (hphrases : Forall₂ (Spelled scope) phrases trees) :
    trees.map Tree.bare = phrases.map (Phrase.tree scope) ∧ Phrase.AllGrammatical phrases ∧ Phrase.AllWithinLimits phrases ∧
      ∀ name ∈ Phrase.allNames phrases, scope.isUninitialized name = false := by
  induction hphrases with
  | nil => exact ⟨rfl, trivial, trivial, by simp [Phrase.allNames]⟩
  | cons h _ ih =>
    refine ⟨by simp [h.tree, ih.1], ⟨h.grammatical, ih.2.1⟩, ⟨h.limits, ih.2.2.1⟩, fun name hname => ?_⟩
    exact (mem_append.1 hname).elim (h.known name) (ih.2.2.2 name)

/-! ### Operands

The first word of the operand has been read already. -/

/-- The phrase is complete in itself. -/
def Primary (phrase : Phrase) (_ : TokenKind) : Prop := phrase.level = .primary

section

variable (hbefore : Stands context ahead before)

include hbefore

theorem literal_sound {phrase : Phrase} {word : Grammar.Word} {make : Note → Tree} (hword : phrase.words = [word])
    (hlevel : phrase.level = .primary) (hphrase : ∀ note, Spelled context.scope phrase (make note))
    (hreads : Reads (alloc make) before tree after) : Phrased context (word :: ahead) tree after Primary := by
  obtain ⟨note, rfl, hafter⟩ := hbefore.alloc hreads
  exact ⟨phrase, ahead, by rw [hword]; rfl, hafter, hphrase note, hlevel⟩

theorem integer_sound {lexeme : String} (hreads : Reads (integer lexeme) before tree after) :
    Phrased context (⟨.number, lexeme⟩ :: ahead) tree after Primary := by
  unfold integer at hreads
  split at hreads
  · rename_i value hvalue
    obtain ⟨hlimit, rfl⟩ := integer?_eq_some.1 hvalue
    exact @literal_sound _ _ _ _ _ hbefore (.integer lexeme) _ _ rfl rfl (fun _ => ⟨rfl, trivial, hlimit, by simp⟩) hreads
  · simp at hreads

theorem string_sound {lexeme : String} (hreads : Reads (string lexeme) before tree after) :
    Phrased context (⟨.string, lexeme⟩ :: ahead) tree after Primary := by
  unfold string at hreads
  simp only [reads_bind, reads_intern] at hreads
  obtain ⟨_, _, ⟨-, hname, rfl, rfl⟩, hreads⟩ := hreads
  exact @literal_sound _ _ _ _ _ hbefore (.string lexeme) _ _ rfl rfl (fun _ => ⟨rfl, trivial, hname, by simp⟩) hreads

theorem nameUse_sound {name : String} (hreads : Reads (nameUse name) before tree after) :
    Phrased context (identifier name :: ahead) tree after Primary := by
  unfold nameUse at hreads
  simp only [reads_bind, reads_intern, reads_get, reads_ite, not_reads_semanticError, false_and, exists_false,
    and_false, false_or, Bool.not_eq_true] at hreads
  obtain ⟨_, _, ⟨-, hname, rfl, rfl⟩, _, _, ⟨-, rfl, rfl⟩, hknown, hreads⟩ := hreads
  rw [hbefore.scope] at hknown hreads
  exact @literal_sound _ _ _ _ _ hbefore (.use _) _ _ rfl rfl (fun _ => ⟨rfl, trivial, hname, by simpa using hknown⟩) hreads

theorem newObject_sound (hreads : Reads newObject before tree after) :
    Phrased context (sign .kwNew :: ahead) tree after Primary := by
  obtain ⟨name, rest, named, rfl, hname, -, hnamed, hreads⟩ := hbefore.named hreads
  obtain ⟨rest, opened, rfl, hopened, hreads⟩ := hnamed.consume (by decide) hreads
  obtain ⟨rest, closed, rfl, hclosed, hreads⟩ := hopened.consume (by decide) hreads
  obtain ⟨note, rfl, hafter⟩ := hclosed.alloc hreads
  exact ⟨.new name, rest, rfl, hafter, ⟨rfl, trivial, hname, by simp⟩, rfl⟩

end

variable [∀ precedence, Honest (operand precedence)]

section

variable (hoperand : OperandSound operand bound) (hbefore : Stands context ahead before) (hlength : ahead.length < bound)

include hoperand hbefore hlength

theorem grouping_sound (hreads : Reads (grouping operand) before tree after) :
    Phrased context (sign .lparen :: ahead) tree after Primary := by
  obtain ⟨inner, middle, hread, hreads⟩ := reads_bind.1 hreads
  obtain ⟨phrase, rest, rfl, hmiddle, hphrase, -⟩ := hoperand hbefore hlength (by decide) hread
  obtain ⟨rest, closed, rfl, hclosed, hreads⟩ := hmiddle.consume (by decide) hreads
  obtain ⟨-, rfl, rfl⟩ := reads_pure.1 hreads
  exact ⟨.group phrase, rest, by simp, hclosed, ⟨hphrase.tree, hphrase.grammatical, hphrase.limits, hphrase.known⟩, rfl⟩

theorem array_sound (hsteps : ahead.length < steps) (hreads : Reads (array operand steps) before tree after) :
    Phrased context (sign .lbracket :: ahead) tree after Primary := by
  obtain ⟨phrases, trees, rest, note, rfl, hafter, hphrases, rfl, -⟩ :=
    listed_sound id hoperand hbefore hlength hsteps (by decide) hreads
  obtain ⟨htrees, hgrammatical, hlimits, hknown⟩ := spelled_all hphrases
  exact ⟨.array phrases, rest, by simp, hafter, ⟨by simp [htrees], hgrammatical, hlimits, hknown⟩, rfl⟩

theorem unary_sound (op : UnaryOp) (hreads : Reads (unary operand op) before tree after) :
    Phrased context (sign op.sign :: ahead) tree after fun phrase kind => .unary ≤ phrase.level ∧ Settled phrase kind := by
  obtain ⟨inner, middle, hread, hreads⟩ := reads_bind.1 hreads
  obtain ⟨phrase, rest, rfl, hmiddle, hphrase, hlevel, hends, -⟩ := hoperand hbefore hlength (by decide) hread
  obtain ⟨note, rfl, hafter⟩ := hmiddle.alloc hreads
  refine ⟨.unary op phrase, rest, rfl, hafter, ⟨by simp [hphrase.tree], ⟨hlevel, hphrase.grammatical⟩, hphrase.limits,
    hphrase.known⟩, by exact Nat.le_refl _, fun operator hoperator => ?_⟩
  exact @operator.leftRung_le .unary (by decide) (Nat.le_of_not_le (hends operator hoperator))

theorem primary_sound {token : Token} {reader : Parser Tree} (hsteps : ahead.length < steps)
    (hreader : primary? operand steps token = some reader) (hreads : Reads reader before tree after) :
    Phrased context (token.word :: ahead) tree after fun phrase kind => .unary ≤ phrase.level ∧ Settled phrase kind := by
  have leaf {word : Grammar.Word} (hword : token.word = word) (hphrased : Phrased context (word :: ahead) tree after Primary) :
      Phrased context (token.word :: ahead) tree after fun phrase kind => .unary ≤ phrase.level ∧ Settled phrase kind := by
    obtain ⟨phrase, rest, hwords, hafter, hphrase, hlevel⟩ := hphrased
    have hunary : .unary ≤ phrase.level := by
      rw [hlevel]
      decide
    exact ⟨phrase, rest, hword ▸ hwords, hafter, hphrase, hunary, settled_of_primary hlevel _⟩
  unfold primary? at hreader
  split at hreader
  all_goals cases hreader
  all_goals rename_i hkind
  · exact leaf (word_eq_sign hkind rfl) (grouping_sound hoperand hbefore hlength hreads)
  · exact leaf (word_eq_sign hkind rfl) (array_sound hoperand hbefore hlength hsteps hreads)
  · rw [word_eq_sign hkind rfl]
    exact unary_sound hoperand hbefore hlength .neg hreads
  · rw [word_eq_sign hkind rfl]
    exact unary_sound hoperand hbefore hlength .not hreads
  · exact leaf (word_eq_open hkind rfl) (nameUse_sound hbefore hreads)
  · exact leaf (word_eq_open hkind rfl) (integer_sound hbefore hreads)
  · exact leaf (word_eq_open hkind rfl)
      (@literal_sound _ _ _ _ _ hbefore (.float _) _ _ rfl rfl (fun _ => ⟨rfl, trivial, trivial, by simp⟩) hreads)
  · exact leaf (word_eq_open hkind rfl) (string_sound hbefore hreads)
  · exact leaf (word_eq_sign hkind rfl)
      (@literal_sound _ _ _ _ _ hbefore (.bool true) _ _ rfl rfl (fun _ => ⟨rfl, trivial, trivial, by simp⟩) hreads)
  · exact leaf (word_eq_sign hkind rfl)
      (@literal_sound _ _ _ _ _ hbefore (.bool false) _ _ rfl rfl (fun _ => ⟨rfl, trivial, trivial, by simp⟩) hreads)
  · exact leaf (word_eq_sign hkind rfl)
      (@literal_sound _ _ _ _ _ hbefore .null _ _ rfl rfl (fun _ => ⟨rfl, trivial, trivial, by simp⟩) hreads)
  · exact leaf (word_eq_sign hkind rfl) (newObject_sound hbefore hreads)

end

/-! ### Operators

The left operand and the sign of the operator have been read already. -/

variable {left : Phrase} {leftTree : Tree}

/-- A phrase that goes on behind `left`, on the rung of its operator; or an assignment, where one is allowed. -/
def GoesOn (left : Phrase) (rung : Precedence) (canAssign : Bool) (phrase : Phrase) (kind : TokenKind) : Prop :=
  left.words.length < phrase.words.length ∧ (phrase.level = rung ∨ canAssign = true ∧ phrase.level = .assignment) ∧
    Settled phrase kind

variable {canAssign : Bool}

theorem length_of_reads_arguments {items result : List Tree} (hcount : items.length ≤ 255)
    (hreads : Reads (sepByBackward .arguments (argument operand) steps items) before result after) : result.length ≤ 255 := by
  induction steps generalizing before items with
  | zero =>
    obtain ⟨-, rfl, -⟩ := reads_pure.1 hreads
    exact hcount
  | succ steps ih =>
    unfold sepByBackward argument at hreads
    obtain ⟨tree, middle, hread, hreads⟩ := reads_bind.1 hreads
    have hroom : items.length ≠ 255 := by
      intro hfull
      simp [hfull, maxArguments] at hread
    rcases reads_accept_bind.1 hreads with ⟨-, next, -, hreads⟩ | ⟨-, hreads⟩
    · exact ih (by simp only [length_cons]; omega) hreads
    · obtain ⟨-, rfl, -⟩ := reads_pure.1 hreads
      simp only [length_cons]
      omega

theorem reads_argument {items : List Tree} (hreads : Reads (argument operand items) before tree after) :
    Reads (operand .assignment) before tree after := by
  unfold argument at hreads
  split at hreads
  · simp at hreads
  · exact hreads

/-- A tree that is a variable comes from a phrase that is one, in any number of parentheses. -/
theorem target?_of_tree {phrase : Phrase} {scope : Scope} {note : Note} {name : String} {symbol : Symbol}
    (htree : phrase.tree scope = .var note name symbol) :
    phrase.target? = some name ∧ symbol = scope.resolve name := by
  match phrase with
  | .use _ =>
    simp only [Phrase.tree, Tree.var.injEq] at htree
    obtain ⟨-, rfl, rfl⟩ := htree
    exact ⟨rfl, rfl⟩
  | .group inner => exact @target?_of_tree inner _ _ _ _ htree
  | .assign _ assignment _ => cases assignment <;> simp [Phrase.tree, AssignmentSign.tree, AssignmentSign.op] at htree
  | .integer _ | .float _ | .string _ | .bool _ | .null | .new _ | .array _ | .unary .. | .binary .. | .ternary ..
  | .call .. | .get .. | .index .. | .set .. | .setIndex .. => simp [Phrase.tree] at htree

/-- An assignment sign and a value are read behind a variable only. -/
theorem reads_assignment (hreads : Reads (assignment operand leftTree) before tree after) :
    (assignmentOp? before.current.kind = none ∧ tree = leftTree ∧ after = before) ∨
      ∃ assignment note name symbol next middle valueTree, before.current.kind = AssignmentSign.kind assignment ∧
        leftTree = .var note name symbol ∧ Reads advance before () next ∧
        Reads (operand .assignment) next valueTree middle ∧ after = { middle with arena := after.arena } ∧
        tree.bare = assignment.tree name symbol valueTree.bare := by
  unfold assignment at hreads
  rw [reads_get_bind] at hreads
  split at hreads
  · rename_i hnone
    obtain ⟨-, rfl, rfl⟩ := reads_pure.1 hreads
    exact .inl ⟨hnone, rfl, rfl⟩
  · rename_i op hop
    obtain ⟨assignment, hsign, rfl⟩ := AssignmentSign.exists_of_assignmentOp? hop
    have hvariable : ∃ note name symbol, leftTree = .var note name symbol := by
      cases leftTree <;> first
        | exact ⟨_, _, _, rfl⟩
        | simp at hreads
    obtain ⟨note, name, symbol, rfl⟩ := hvariable
    refine .inr ⟨assignment, note, name, symbol, ?_⟩
    unfold AssignmentSign.tree
    cases hcompound : assignment.op with
    | none =>
      simp only [hcompound, parser_liftM, reads_bind, reads_alloc] at hreads
      obtain ⟨_, next, hadvance, valueTree, middle, hread, -, rfl, rfl⟩ := hreads
      exact ⟨next, middle, valueTree, hsign, rfl, hadvance, hread, rfl, rfl⟩
    | some op =>
      simp only [hcompound, parser_liftM, reads_bind, reads_alloc] at hreads
      obtain ⟨_, next, hadvance, valueTree, middle, hread, _, _, ⟨-, rfl, rfl⟩, _, _, ⟨-, rfl, rfl⟩, -, rfl, rfl⟩ :=
        hreads
      refine ⟨next, middle, valueTree, hsign, rfl, hadvance, hread, ?_, ?_⟩
      · simp only [State.alloc]
      · simp only [State.alloc, Tree.bare]

section

variable (hoperand : OperandSound operand bound) (hbefore : Stands context ahead before)

include hoperand hbefore

section

variable (hlength : ahead.length < bound)

include hlength

/-- A sign and a value behind it, where an assignment is allowed; or nothing. -/
theorem assigned_sound {make : Tree → Note → Tree} {make' : Note → Tree} (hreads : Reads (do
      if canAssign && (← check .eq) then
        advance
        let value ← operand .assignment
        alloc (make value)
      else
        alloc make') before tree after) :
    (∃ value valueTree rest note, canAssign = true ∧ ahead = sign .eq :: value.words ++ rest ∧ Stands context rest after ∧
      Spelled context.scope value valueTree ∧ tree = make valueTree note ∧ Ends .assignment (headKind rest)) ∨
    ∃ note, tree = make' note ∧ Stands context ahead after := by
  rw [reads_check_bind] at hreads
  rcases reads_ite.1 hreads with ⟨hassign, hreads⟩ | ⟨-, hreads⟩
  · obtain ⟨hassign, hsign⟩ := Bool.and_eq_true_iff.1 hassign
    obtain ⟨_, assigned, hadvance, hreads⟩ := reads_bind.1 hreads
    obtain ⟨rest, rfl, hassigned⟩ := hbefore.sign (beq_iff_eq.1 hsign) (by decide) hadvance
    obtain ⟨valueTree, middle, hread, hreads⟩ := reads_bind.1 hreads
    obtain ⟨value, rest, rfl, hmiddle, hvalue, -, hends, -⟩ :=
      hoperand hassigned (Nat.lt_of_succ_lt hlength) (by decide) hread
    obtain ⟨note, rfl, hafter⟩ := hmiddle.alloc hreads
    exact .inl ⟨value, valueTree, rest, note, hassign, rfl, hafter, hvalue, rfl, hends⟩
  · exact .inr (hbefore.alloc hreads)

variable (hleft : Spelled context.scope left leftTree)

include hleft

theorem binary_sound {op : BinaryOp} (hrung : op.rung ≤ left.level)
    (hreads : Reads (binary operand op leftTree) before tree after) :
    Phrased context (left.words ++ sign op.sign :: ahead) tree after (GoesOn left op.rung canAssign) := by
  obtain ⟨rightTree, middle, hread, hreads⟩ := reads_bind.1 hreads
  rw [precedence_binary] at hread
  obtain ⟨right, rest, rfl, hmiddle, hright, hlevel, hends, -⟩ := hoperand hbefore hlength op.next_rung_le_unary hread
  obtain ⟨note, rfl, hafter⟩ := hmiddle.alloc hreads
  refine ⟨.binary op left right, rest, by simp, hafter, ⟨by simp [hleft.tree, hright.tree],
    ⟨⟨hrung, hleft.grammatical⟩, hlevel, hright.grammatical⟩, ⟨hleft.limits, hright.limits⟩, ?_⟩, by simp, .inl rfl,
    fun operator hoperator => ?_⟩
  · simpa [or_imp, forall_and] using And.intro hleft.known hright.known
  · have hlooser := Precedence.le_of_not_next_le op.rung_le_unary (hends operator hoperator)
    exact operator.leftRung_le op.or_le_rung hlooser

theorem ternary_sound {mark : TernaryMark} (hrung : .or ≤ left.level)
    (hreads : Reads (ternary operand leftTree) before tree after) :
    Phrased context (left.words ++ sign mark.kind :: ahead) tree after (GoesOn left .ternary canAssign) := by
  obtain ⟨positiveTree, middle, hread, hreads⟩ := reads_bind.1 hreads
  obtain ⟨positive, rest, rfl, hmiddle, hpositive, hlevel, -⟩ := hoperand hbefore hlength (by decide) hread
  obtain ⟨rest, next, rfl, hnext, hreads⟩ := hmiddle.consume (by decide) hreads
  obtain ⟨negativeTree, last, hread', hreads⟩ := reads_bind.1 hreads
  simp only [length_append, length_cons] at hlength
  obtain ⟨negative, rest, rfl, hlast, hnegative, hlevel', hends, -⟩ := hoperand hnext (by omega) (by decide) hread'
  obtain ⟨note, rfl, hafter⟩ := hlast.alloc hreads
  refine ⟨.ternary mark left positive negative, rest, by simp, hafter, ⟨by simp [hleft.tree, hpositive.tree, hnegative.tree],
    ⟨⟨hrung, hleft.grammatical⟩, ⟨hlevel, hpositive.grammatical⟩, hlevel', hnegative.grammatical⟩,
    ⟨hleft.limits, hpositive.limits, hnegative.limits⟩, ?_⟩, by simp, .inl rfl, fun operator hoperator => ?_⟩
  · simpa [or_imp, forall_and, and_assoc] using And.intro hleft.known (And.intro hpositive.known hnegative.known)
  · exact absurd operator.ternary_le_precedence (hends operator hoperator)

theorem call_sound (hsteps : ahead.length < steps) (hrung : .call ≤ left.level)
    (hreads : Reads (call operand steps leftTree) before tree after) :
    Phrased context (left.words ++ sign .lparen :: ahead) tree after (GoesOn left .call canAssign) := by
  obtain ⟨phrases, trees, rest, note, rfl, hafter, hphrases, rfl, hlist⟩ :=
    listed_sound reads_argument hoperand hbefore hlength hsteps (by decide) hreads
  have hcount : phrases.length ≤ 255 := by
    rw [hphrases.length_eq]
    rcases hlist with rfl | ⟨result, _, hread, rfl⟩
    · simp
    · simpa using length_of_reads_arguments (by simp) hread
  obtain ⟨htrees, hgrammatical, hlimits, hknown⟩ := spelled_all hphrases
  refine ⟨.call left phrases, rest, by simp, hafter, ⟨by simp [hleft.tree, htrees], ⟨⟨hrung, hleft.grammatical⟩, hgrammatical⟩,
    ⟨hleft.limits, hcount, hlimits⟩, ?_⟩, by simp, .inl rfl, settled_of_call rfl _⟩
  simpa [or_imp, forall_and] using And.intro hleft.known hknown

theorem dot_sound (hrung : .call ≤ left.level) (hreads : Reads (dot operand canAssign leftTree) before tree after) :
    Phrased context (left.words ++ sign .dot :: ahead) tree after (GoesOn left .call canAssign) := by
  obtain ⟨name, rest, named, rfl, hname, -, hnamed, hreads⟩ := hbefore.named hreads
  rcases assigned_sound hoperand hnamed (Nat.lt_of_succ_lt hlength) hreads with
    ⟨value, valueTree, rest, note, hassign, rfl, hafter, hvalue, rfl, hends⟩ | ⟨note, rfl, hafter⟩
  · refine ⟨.set left name value, rest, by simp, hafter, ⟨by simp [hleft.tree, hvalue.tree],
      ⟨⟨hrung, hleft.grammatical⟩, hvalue.grammatical⟩, ⟨hleft.limits, hname, hvalue.limits⟩, ?_⟩, by simp,
      .inr ⟨hassign, rfl⟩, settled_of_ends hends⟩
    simpa [or_imp, forall_and] using And.intro hleft.known hvalue.known
  · exact ⟨.get left name, rest, by simp, hafter, ⟨by simp [hleft.tree], ⟨hrung, hleft.grammatical⟩, ⟨hleft.limits, hname⟩,
      hleft.known⟩, by simp, .inl rfl, settled_of_call rfl _⟩

theorem index_sound (hrung : .call ≤ left.level)
    (hreads : Reads (index operand canAssign leftTree) before tree after) :
    Phrased context (left.words ++ sign .lbracket :: ahead) tree after (GoesOn left .call canAssign) := by
  obtain ⟨positionTree, middle, hread, hreads⟩ := reads_bind.1 hreads
  obtain ⟨position, rest, rfl, hmiddle, hposition, -⟩ := hoperand hbefore hlength (by decide) hread
  obtain ⟨rest, closed, rfl, hclosed, hreads⟩ := hmiddle.consume (by decide) hreads
  simp only [length_append, length_cons] at hlength
  rcases assigned_sound hoperand hclosed (by omega) hreads with
    ⟨value, valueTree, rest, note, hassign, rfl, hafter, hvalue, rfl, hends⟩ | ⟨note, rfl, hafter⟩
  · refine ⟨.setIndex left position value, rest, by simp, hafter, ⟨by simp [hleft.tree, hposition.tree, hvalue.tree],
      ⟨⟨hrung, hleft.grammatical⟩, hposition.grammatical, hvalue.grammatical⟩,
      ⟨hleft.limits, hposition.limits, hvalue.limits⟩, ?_⟩, by simp, .inr ⟨hassign, rfl⟩, settled_of_ends hends⟩
    simpa [or_imp, forall_and, and_assoc] using And.intro hleft.known (And.intro hposition.known hvalue.known)
  · refine ⟨.index left position, rest, by simp, hafter, ⟨by simp [hleft.tree, hposition.tree],
      ⟨⟨hrung, hleft.grammatical⟩, hposition.grammatical⟩, ⟨hleft.limits, hposition.limits⟩, ?_⟩, by simp, .inl rfl,
      settled_of_call rfl _⟩
    simpa [or_imp, forall_and] using And.intro hleft.known hposition.known

theorem follow_sound {kind : TokenKind} {operator : Operator} (hsteps : ahead.length < steps) (hoperator : ofToken? kind = some operator)
    (hsettled : Settled left kind) (hreads : Reads (follow operand steps canAssign operator leftTree) before tree after) :
    Phrased context (left.words ++ sign kind :: ahead) tree after (GoesOn left operator.precedence canAssign) := by
  have hrung := hsettled operator hoperator
  match operator, hoperator, hreads, hrung with
  | .binary op, hoperator, hreads, hrung =>
    obtain rfl := eq_sign_of_ofToken? hoperator
    rw [leftRung, precedence_binary] at hrung
    · rw [precedence_binary]
      exact binary_sound hoperand hbefore hlength hleft hrung hreads
    · simp
  | .ternary, hoperator, hreads, hrung =>
    obtain ⟨mark, rfl⟩ := TernaryMark.exists_of_ofToken? hoperator
    exact ternary_sound hoperand hbefore hlength hleft hrung hreads
  | .call, hoperator, hreads, hrung =>
    obtain rfl := eq_lparen_of_ofToken? hoperator
    exact call_sound hoperand hbefore hlength hleft hsteps hrung hreads
  | .index, hoperator, hreads, hrung =>
    obtain rfl := eq_lbracket_of_ofToken? hoperator
    exact index_sound hoperand hbefore hlength hleft hrung hreads
  | .dot, hoperator, hreads, hrung =>
    obtain rfl := eq_dot_of_ofToken? hoperator
    exact dot_sound hoperand hbefore hlength hleft hrung hreads

end

variable (hlength : ahead.length ≤ bound) (hleft : Spelled context.scope left leftTree)

include hlength hleft

/-- The loop over the operators. What has been read so far is a phrase that is wide enough for what was asked, and every
operator that may come next can take it as its left operand. -/
theorem climb_sound {depth : Nat} (hdepth : ahead.length ≤ depth) (hsteps : ahead.length ≤ steps)
    (hlevel : precedence ≤ left.level) (hsettled : Settled left (headKind ahead))
    (hreads : Reads (climb operand depth precedence steps leftTree) before tree after) :
    Phrased context (left.words ++ ahead) tree after fun phrase kind => precedence ≤ phrase.level ∧ Ends precedence kind := by
  induction steps generalizing before ahead left leftTree with
  | zero =>
    obtain ⟨-, rfl, rfl⟩ := reads_pure.1 hreads
    obtain rfl := length_eq_zero_iff.1 (Nat.le_zero.1 hsteps)
    exact ⟨left, [], rfl, hbefore, hleft, hlevel, fun _ hoperator => by contradiction⟩
  | succ steps ih =>
    unfold climb at hreads
    rw [parser_enter, reads_get_bind] at hreads
    split at hreads
    · rename_i hnone
      obtain ⟨-, rfl, rfl⟩ := reads_pure.1 hreads
      rw [hbefore.kind] at hnone
      refine ⟨left, ahead, rfl, hbefore, hleft, hlevel, fun operator hoperator => ?_⟩
      rw [hnone] at hoperator
      contradiction
    · rename_i operator hoperator
      rcases reads_ite.1 hreads with ⟨hbinds, hreads⟩ | ⟨hloose, hreads⟩
      · obtain ⟨_, next, hadvance, hreads⟩ := reads_bind.1 hreads
        obtain ⟨nextTree, middle, hread, hreads⟩ := reads_bind.1 hreads
        obtain ⟨rest, rfl, hnext⟩ := hbefore.sign rfl (isSign_of_ofToken? hoperator) hadvance
        simp only [length_cons] at hlength hdepth hsteps
        obtain ⟨phrase, last, hwords, hmiddle, hphrase, hlonger, hlevel', hsettled'⟩ :=
          follow_sound hoperand hnext (by omega) hleft (by omega) hoperator hsettled hread
        have hlengths := congrArg length hwords
        simp only [length_append, length_cons] at hlengths
        rw [hwords]
        refine ih hmiddle (by omega) hphrase (by omega) (by omega) ?_ hsettled' hreads
        rcases hlevel' with hlevel' | ⟨hassign, hlevel'⟩
        · rwa [hlevel']
        · rw [hlevel']
          simpa using hassign
      · obtain ⟨-, rfl, rfl⟩ := reads_pure.1 hreads
        rw [hbefore.kind] at hoperator
        refine ⟨left, ahead, rfl, hbefore, hleft, hlevel, fun other hother => ?_⟩
        rw [hoperator] at hother
        obtain rfl := Option.some.inj hother
        exact hloose

theorem assignment_sound (hends : Ends .assignment (headKind ahead)) (hreads : Reads (assignment operand leftTree) before tree after) :
    Phrased context (left.words ++ ahead) tree after fun _ kind => Ends .assignment kind ∧ assignmentOp? kind = none := by
  rcases reads_assignment hreads with ⟨hnone, rfl, rfl⟩ |
    ⟨assignment, note, name, symbol, next, middle, valueTree, hsign, rfl, hadvance, hread, hafter, htree⟩
  · exact ⟨left, ahead, rfl, hbefore, hleft, hends, hbefore.kind ▸ hnone⟩
  · obtain ⟨rest, rfl, hnext⟩ := hbefore.sign hsign (by cases assignment <;> decide) hadvance
    obtain ⟨value, rest, rfl, hmiddle, hvalue, -, hends, hassignment⟩ := hoperand hnext hlength (by decide) hread
    obtain ⟨hname, rfl⟩ := target?_of_tree hleft.tree.symm
    have hstands : Stands context rest after := by
      rw [hafter]
      exact ⟨hmiddle.framed, hmiddle.words, hmiddle.context⟩
    refine ⟨.assign left assignment value, rest, by simp, hstands, ⟨?_, ⟨by simp [hname], hvalue.grammatical⟩,
      ⟨hleft.limits, hvalue.limits⟩, ?_⟩, hends, hassignment (by decide)⟩
    · rw [htree, hvalue.tree]
      simp [hname]
    · simpa [or_imp, forall_and] using And.intro hleft.known hvalue.known

end

end

/-- What `expressionAt` does without a report: it reads an operand, the operators behind it and perhaps an assignment. -/
theorem reads_expressionAt {depth : Nat} {before after : State} {tree : Tree} :
    Reads (expressionAt (depth + 1) precedence) before tree after ↔
      ∃ next reader primaryTree front climbed middle, Reads advance before () next ∧
        primary? (expressionAt depth) depth before.current = some reader ∧ Reads reader next primaryTree front ∧
        Reads (climb (expressionAt depth) depth precedence depth primaryTree) front climbed middle ∧
        Reads (if precedence ≤ .assignment then assignment (expressionAt depth) climbed else return climbed) middle tree
          after := by
  have hprevious : ∀ {next : State}, Reads advance before () next → next.previous = before.current := by
    intro next hadvance
    obtain ⟨-, -, rfl⟩ := reads_advance.1 hadvance
    exact previous_shift before
  unfold expressionAt
  refine (@reads_bind _ _ _ _ _ _ inferInstance (fun _ => .bind inferInstance fun token => ?_) _).trans ⟨?_, ?_⟩
  · split
    · infer_instance
    · rename_i reader hreader
      have : Honest reader := keeps_of_mem_primary? _ hreader
      infer_instance
  · rintro ⟨_, next, hadvance, hreads⟩
    rw [parser_liftM, reads_previous_bind, hprevious hadvance] at hreads
    split at hreads
    · simp at hreads
    · rename_i reader hreader
      have : Honest reader := keeps_of_mem_primary? _ hreader
      obtain ⟨primaryTree, front, hprimary, hreads⟩ := reads_bind.1 hreads
      obtain ⟨climbed, middle, hclimb, hreads⟩ := reads_bind.1 hreads
      exact ⟨next, reader, primaryTree, front, climbed, middle, hadvance, hreader, hprimary, hclimb, hreads⟩
  · rintro ⟨next, reader, primaryTree, front, climbed, middle, hadvance, hreader, hprimary, hclimb, hreads⟩
    have : Honest reader := keeps_of_mem_primary? _ hreader
    refine ⟨(), next, hadvance, ?_⟩
    rw [parser_liftM, reads_previous_bind, hprevious hadvance, hreader]
    exact reads_bind.2 ⟨primaryTree, front, hprimary, reads_bind.2 ⟨climbed, middle, hclimb, hreads⟩⟩

/-- Whatever is read as an expression is a phrase, as long as the depth is not used up. -/
theorem expressionAt_sound (depth : Nat) : OperandSound (expressionAt depth) depth := by
  induction depth with
  | zero =>
    intro _ _ _ _ _ _ _ hlength
    omega
  | succ depth ih =>
    intro precedence context ahead before after tree hbefore hlength hprecedence hreads
    obtain ⟨next, reader, primaryTree, front, climbed, middle, hadvance, hreader, hprimary, hclimb, hreads⟩ :=
      reads_expressionAt.1 hreads
    have hunread : before.current.kind ≠ .eof := by
      intro hend
      simp [primary?, hend] at hreader
    obtain ⟨rest, rfl, -, hnext⟩ := hbefore.step hunread hadvance
    simp only [length_cons] at hlength
    obtain ⟨left, last, hwords, hfront, hleft, hlevel, hsettled⟩ :=
      primary_sound ih hnext (by omega) (by omega) hreader hprimary
    have hnonempty := length_pos_iff.2 left.words_ne_nil
    have hlengths := congrArg length hwords
    simp only [length_append, length_cons] at hlengths
    rw [hwords]
    obtain ⟨phrase, rest', hwords', hmiddle, hphrase, hlevel', hends⟩ := climb_sound ih hfront (by omega) hleft (by omega)
      (by omega) (Precedence.le_trans hprecedence hlevel) hsettled hclimb
    rw [hwords']
    rcases reads_ite.1 hreads with ⟨hloosest, hreads⟩ | ⟨htighter, hreads⟩
    · obtain rfl : precedence = .assignment := precedence.eq_assignment_of_le hloosest
      have hlengths' := congrArg length hwords'
      simp only [length_append] at hlengths'
      have hpositive := length_pos_iff.2 phrase.words_ne_nil
      obtain ⟨phrase, rest, hwords, hafter, hphrase, hends', hassignment⟩ :=
        assignment_sound ih hmiddle (by omega) hphrase hends hreads
      exact ⟨phrase, rest, hwords, hafter, hphrase, phrase.level.assignment_le, hends', fun _ => hassignment⟩
    · obtain ⟨-, rfl, rfl⟩ := reads_pure.1 hreads
      exact ⟨phrase, rest', rfl, hmiddle, hphrase, hlevel', hends, fun hloosest => absurd hloosest htighter⟩

end Parser

end NanScript
