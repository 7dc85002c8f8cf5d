import NanScript.Proofs.Grammar.Meaning
import NanScript.Proofs.Parser.CleanRun

/-!
# What is ahead

`State.words` is the text in front of the parser, from the current token to the end. A state is framed if its tokens
have one end mark, at the end; there the parser stays. `Moves` says what reading one token changes, and the readers
without a report are described by it.
-/

namespace NanScript.Parser

open Grammar

namespace State

/-- One token on, whatever it is. -/
def shift (state : State) : State :=
  match state.rest with
  | [] => { state with previous := state.current }
  | [last] => { state with previous := state.current, current := last, rest := [last] }
  | token :: rest => { state with previous := state.current, current := token, rest }

theorem previous_shift (state : State) : state.shift.previous = state.current := by
  unfold shift
  split <;> rfl

/-- The next token is none that stands for a lexical error. -/
def NextFine (state : State) : Prop :=
  match state.rest with
  | token :: _ :: _ => token.kind ≠ .error
  | _ => True

/-- The tokens end with one end mark, or the parser stands at it. -/
def Framed (state : State) : Prop :=
  ∃ last : Token, last.kind = .eof ∧
    (state.current = last ∧ state.rest = [last] ∨
      state.current.kind ≠ .eof ∧ ∃ more, state.rest = more ++ [last] ∧ ∀ token ∈ more, token.kind ≠ .eof)

/-- The words from the current one to the end. -/
def words (state : State) : List Grammar.Word :=
  if state.current.kind = .eof then [] else state.current.word :: state.rest.dropLast.map Token.word

/-- One token has been read, and nothing else has happened. -/
structure Moves (before after : State) : Prop where
  framed : after.Framed
  previous : after.previous = before.current
  words : before.words = before.current.word :: after.words
  context : after.context = before.context

variable {state : State}

theorem words_eq_nil : state.words = [] ↔ state.current.kind = .eof := by
  unfold words
  split <;> simp_all

theorem kind_of_words {word : Grammar.Word} {rest : List Grammar.Word} (hwords : state.words = word :: rest) :
    state.current.kind = word.kind ∧ state.current.word = word := by
  unfold words at hwords
  split at hwords
  · contradiction
  · obtain ⟨rfl, -⟩ := List.cons.injEq .. ▸ hwords
    exact ⟨rfl, rfl⟩

theorem moves_shift (hframed : state.Framed) (hunread : state.current.kind ≠ .eof) : Moves state state.shift := by
  obtain ⟨last, hlast, ⟨rfl, -⟩ | ⟨-, more, hrest, hmore⟩⟩ := hframed
  · contradiction
  · match more, hrest, hmore with
    | [], hrest, _ =>
      refine ⟨⟨last, hlast, .inl ?_⟩, ?_, ?_, ?_⟩
      all_goals simp [shift, hrest, words, context, hlast, hunread]
    | [token], hrest, hmore =>
      have htoken : token.kind ≠ .eof := hmore token (by simp)
      refine ⟨⟨last, hlast, .inr ⟨?_, [], ?_, by simp⟩⟩, ?_, ?_, ?_⟩
      all_goals simp [shift, hrest, words, context, htoken, hunread]
    | token :: second :: others, hrest, hmore =>
      have htoken : token.kind ≠ .eof := hmore token (by simp)
      refine ⟨⟨last, hlast, .inr ⟨?_, second :: others, ?_, ?_⟩⟩, ?_, ?_, ?_⟩
      · simp [shift, hrest, htoken]
      · simp [shift, hrest]
      · intro other hother
        exact hmore other (by simp_all)
      all_goals simp [shift, hrest, words, context, htoken, hunread, List.dropLast_cons_of_ne_nil]

end State

open State

/-! ### Reading one token -/

variable {before after : State} {result : Unit}

theorem reads_advance : Reads advance before result after ↔ before.Clean ∧ before.NextFine ∧ after = before.shift := by
  constructor
  · rintro ⟨hclean, hrun, hclean'⟩
    have hafter : before.advance = after := congrArg Prod.snd hrun
    refine ⟨hclean, ?_⟩
    unfold State.advance at hafter
    unfold NextFine shift
    match hrest : before.rest with
    | [] => simp_all [pull]
    | [last] => simp_all [pull]
    | token :: second :: others =>
      rw [hrest, pull] at hafter
      · split at hafter
        · rename_i herror
          have hsilent := errors_of_pull (hafter ▸ hclean'.silent)
          exact absurd hsilent (errors_errorAt (by exact hclean.coherent) _ _)
        · rename_i hfine
          exact ⟨hfine, hafter.symm⟩
      · simp
  · rintro ⟨hclean, hfine, rfl⟩
    have hshift : before.advance = before.shift := by
      unfold State.advance shift
      unfold NextFine at hfine
      match hrest : before.rest with
      | [] => rfl
      | [last] => rfl
      | token :: second :: others =>
        rw [hrest] at hfine
        rw [pull, if_neg hfine]
        simp
    refine ⟨hclean, ?_, ?_⟩
    · rw [← hshift]
      rfl
    · unfold shift
      split <;> exact ⟨hclean.silent, hclean.calm⟩

theorem Reads.moves (hreads : Reads advance before result after) (hframed : before.Framed)
    (hunread : before.current.kind ≠ .eof) : Moves before after := by
  obtain ⟨-, -, rfl⟩ := reads_advance.1 hreads
  exact moves_shift hframed hunread

variable {kind : TokenKind}

@[simp] theorem reads_consume {what : String} : Reads (consume kind what) before result after ↔
      before.current.kind = kind ∧ Reads advance before result after := by
  unfold consume
  rw [reads_check_bind, reads_ite]
  simp [State.check]

theorem reads_accept_bind {α : Type} {next : Bool → Parser α} [∀ found, Honest (next found)] {result : α} :
    Reads (accept kind >>= next) before result after ↔
      (before.current.kind = kind ∧ ∃ middle, Reads advance before () middle ∧ Reads (next true) middle result after) ∨
        (before.current.kind ≠ kind ∧ Reads (next false) before result after) := by
  unfold accept
  rw [bind_assoc, reads_check_bind]
  by_cases hkind : before.current.kind = kind
  · have hcheck : before.check kind = true := by simpa [State.check] using hkind
    simp only [hcheck, if_true, bind_assoc, pure_bind, reads_bind, hkind, ne_eq, not_true_eq_false, false_and,
      or_false, true_and]
    constructor
    · rintro ⟨_, middle, hreads⟩
      exact ⟨middle, hreads⟩
    · rintro ⟨middle, hreads⟩
      exact ⟨(), middle, hreads⟩
  · have hcheck : before.check kind = false := by simpa [State.check] using hkind
    simp [hcheck, hkind]

@[simp] theorem reads_accept {found : Bool} : Reads (accept kind) before found after ↔
      (before.current.kind = kind ∧ found = true ∧ Reads advance before () after) ∨
        (before.current.kind ≠ kind ∧ found = false ∧ before.Clean ∧ after = before) := by
  have hbind : accept kind = accept kind >>= pure := (bind_pure _).symm
  rw [hbind, reads_accept_bind]
  simp only [reads_pure]
  constructor
  · rintro (⟨hkind, _, hadvance, -, rfl, rfl⟩ | ⟨hkind, hclean, rfl, rfl⟩)
    · exact .inl ⟨hkind, rfl, hadvance⟩
    · exact .inr ⟨hkind, rfl, hclean, rfl⟩
  · rintro (⟨hkind, rfl, hadvance⟩ | ⟨hkind, rfl, hclean, rfl⟩)
    · exact .inl ⟨hkind, after, hadvance, hadvance.clean_after, rfl, rfl⟩
    · exact .inr ⟨hkind, hclean, rfl, rfl⟩

/-! ### Nodes and names -/

@[simp] theorem reads_alloc {make : Note → Tree} {tree : Tree} : Reads (alloc make) before tree after ↔
      before.Clean ∧ tree = (before.alloc make).1 ∧ after = (before.alloc make).2 := by
  constructor
  · rintro ⟨hclean, hrun, -⟩
    obtain ⟨rfl, rfl⟩ := Prod.mk.injEq .. ▸ hrun
    exact ⟨hclean, rfl, rfl⟩
  · rintro ⟨hclean, rfl, rfl⟩
    exact ⟨hclean, rfl, hclean.silent, hclean.calm⟩

theorem reads_modify {change : State → State} :
    Reads (modify change) before result after ↔ before.Clean ∧ after = change before ∧ after.Clean := by
  constructor
  · rintro ⟨hclean, hrun, hclean'⟩
    exact ⟨hclean, (congrArg Prod.snd hrun).symm, hclean'⟩
  · rintro ⟨hclean, rfl, hclean'⟩
    exact ⟨hclean, rfl, hclean'⟩

theorem reads_modify_of_clean {change : State → State} (hchange : before.Clean → (change before).Clean) :
    Reads (modify change) before result after ↔ before.Clean ∧ after = change before := by
  rw [reads_modify]
  constructor
  · rintro ⟨hclean, hafter, -⟩
    exact ⟨hclean, hafter⟩
  · rintro ⟨hclean, rfl⟩
    exact ⟨hclean, rfl, hchange hclean⟩

def State.linked (state : State) (trees : List Tree) : State :=
  { state with arena := state.arena.chain (trees.map Tree.id) }

variable {trees : List Tree}

@[simp] theorem reads_link : Reads (link trees) before result after ↔ before.Clean ∧ after = before.linked trees :=
  reads_modify_of_clean fun hclean => ⟨hclean.silent, hclean.calm⟩

@[simp] theorem reads_modifyScope {change : Scope → Scope} : Reads (modifyScope change) before result after ↔
      before.Clean ∧ after = { before with scope := change before.scope } :=
  reads_modify_of_clean fun hclean => ⟨hclean.silent, hclean.calm⟩

variable {name : String}

@[simp] theorem reads_intern {text : String} :
    Reads (intern text) before name after ↔ before.Clean ∧ Nameable text ∧ name = text ∧ after = before := by
  have hlimit : Interner.maxLength < text.utf8ByteSize ↔ ¬ Nameable text := Nat.not_le.symm
  unfold intern
  rw [reads_ite]
  simp only [reads_bind, not_reads_error, false_and, exists_false, and_false, false_or, hlimit, Decidable.not_not,
    reads_pure]
  exact and_left_comm

/-- A new name is declared whatever is to be done about an old one. -/
theorem reads_declare_new {problem : Option ParseProblem} {symbol : Symbol}
    (hnew : before.scope.declaredHere? name = none) : Reads (declare name problem) before symbol after ↔
      before.Clean ∧ symbol = before.scope.nextSymbol ∧ after = { before with scope := before.scope.declare name } := by
  unfold declare
  rw [reads_get_bind]
  simp only [hnew, reads_bind, reads_modifyScope, reads_pure]
  constructor
  · rintro ⟨_, _, ⟨hclean, rfl⟩, -, rfl, rfl⟩
    exact ⟨hclean, rfl, rfl⟩
  · rintro ⟨hclean, rfl, rfl⟩
    exact ⟨(), _, ⟨hclean, rfl⟩, ⟨hclean.silent, hclean.calm⟩, rfl, rfl⟩

@[simp] theorem reads_declare {problem : ParseProblem} {symbol : Symbol} :
    Reads (declare name (some problem)) before symbol after ↔
      before.Clean ∧ before.scope.declaredHere? name = none ∧ symbol = before.scope.nextSymbol ∧
        after = { before with scope := before.scope.declare name } := by
  cases hhere : before.scope.declaredHere? name with
  | none => simp only [reads_declare_new hhere, true_and]
  | some existing =>
    unfold declare
    rw [reads_get_bind]
    simp only [hhere, reads_bind, not_reads_semanticError, false_and, exists_false, reduceCtorEq, and_false]

@[simp] theorem reads_declarePrevious {declared : String × Symbol} : Reads declarePrevious before declared after ↔
      before.Clean ∧ Nameable before.previous.lexeme ∧
        before.scope.declaredHere? before.previous.lexeme = none ∧
        declared = (before.previous.lexeme, before.scope.nextSymbol) ∧
        after = { before with scope := before.scope.declare before.previous.lexeme } := by
  unfold declarePrevious
  rw [reads_previous_bind]
  simp only [reads_bind, reads_intern, reads_declare, reads_pure]
  constructor
  · rintro ⟨_, _, ⟨hclean, hname, rfl, rfl⟩, _, _, ⟨-, hhere, rfl, rfl⟩, -, rfl, rfl⟩
    exact ⟨hclean, hname, hhere, rfl, rfl⟩
  · rintro ⟨hclean, hname, hhere, rfl, rfl⟩
    exact ⟨_, _, ⟨hclean, hname, rfl, rfl⟩, _, _, ⟨hclean, hhere, rfl, rfl⟩, ⟨hclean.silent, hclean.calm⟩, rfl, rfl⟩

/-! ### What may be missing -/

theorem reads_optionalExpression {depth : Nat} {ends : TokenKind} {tree : Option Tree} :
    Reads (optionalExpression depth ends) before tree after ↔
      (before.current.kind = ends ∧ tree = none ∧ before.Clean ∧ after = before) ∨
        (before.current.kind ≠ ends ∧ ∃ given, tree = some given ∧ Reads (expression depth) before given after) := by
  unfold optionalExpression
  rw [parser_liftM, reads_check_bind, reads_ite]
  simp only [State.check, beq_iff_eq, reads_pure, reads_map]
  constructor
  · rintro (⟨hkind, hclean, rfl, rfl⟩ | ⟨hkind, given, hread, rfl⟩)
    · exact .inl ⟨hkind, rfl, hclean, rfl⟩
    · exact .inr ⟨hkind, given, rfl, hread⟩
  · rintro (⟨hkind, rfl, hclean, rfl⟩ | ⟨hkind, given, rfl, hread⟩)
    · exact .inl ⟨hkind, hclean, rfl, rfl⟩
    · exact .inr ⟨hkind, given, hread, rfl⟩

theorem reads_behind {reader : Parser Tree} [Honest reader] {tree : Option Tree} :
    Reads (behind kind reader) before tree after ↔
      (before.current.kind = kind ∧ ∃ given middle, tree = some given ∧ Reads advance before () middle ∧
        Reads reader middle given after) ∨
        (before.current.kind ≠ kind ∧ tree = none ∧ before.Clean ∧ after = before) := by
  unfold behind
  rw [parser_liftM, reads_accept_bind]
  simp only [if_true, Bool.false_eq_true, if_false, reads_pure, reads_map]
  constructor
  · rintro (⟨hkind, middle, hadvance, given, hread, rfl⟩ | ⟨hkind, hclean, rfl, rfl⟩)
    · exact .inl ⟨hkind, given, middle, rfl, hadvance, hread⟩
    · exact .inr ⟨hkind, rfl, hclean, rfl⟩
  · rintro (⟨hkind, given, middle, rfl, hadvance, hread⟩ | ⟨hkind, rfl, hclean, rfl⟩)
    · exact .inl ⟨hkind, middle, hadvance, given, hread, rfl⟩
    · exact .inr ⟨hkind, hclean, rfl, rfl⟩

theorem reads_forCondition {depth : Nat} {tree : Tree} : Reads (forCondition depth) before tree after ↔
      (before.current.kind = .semicolon ∧ Reads (alloc (.bool · true)) before tree after) ∨
        (before.current.kind ≠ .semicolon ∧ Reads (expression depth) before tree after) := by
  unfold forCondition
  refine (@reads_bind _ _ _ _ _ _ inferInstance (fun condition => ?_) _).trans ?_
  · split <;> infer_instance
  simp only [reads_optionalExpression]
  constructor
  · rintro ⟨_, _, ⟨hkind, rfl, -, rfl⟩ | ⟨hkind, given, rfl, hread⟩, hreads⟩
    · exact .inl ⟨hkind, hreads⟩
    · obtain ⟨-, rfl, rfl⟩ := reads_pure.1 hreads
      exact .inr ⟨hkind, hread⟩
  · rintro (⟨hkind, hreads⟩ | ⟨hkind, hread⟩)
    · exact ⟨none, before, .inl ⟨hkind, rfl, hreads.clean, rfl⟩, hreads⟩
    · exact ⟨some tree, after, .inr ⟨hkind, tree, rfl, hread⟩, reads_pure.2 ⟨hread.clean_after, rfl, rfl⟩⟩

/-! ### Bodies -/

/-- `count` members are read one after the other, none of them where the body ends. -/
inductive Members (ends : TokenKind → Bool) (member : Parser (Option Tree)) : Nat → State → List Tree → State → Prop
  | nil {state : State} : state.Clean → Members ends member 0 state [] state
  | cons {count : Nat} {before middle after : State} {result : Option Tree} {trees : List Tree} :
    ends before.current.kind = false → Reads member before result middle → Members ends member count middle trees after →
      Members ends member (count + 1) before (result.toList ++ trees) after

variable {round : Activity} {ends : TokenKind → Bool} {member : Parser (Option Tree)}

theorem Members.clean {count : Nat} (hmembers : Members ends member count before trees after) : before.Clean := by
  cases hmembers with
  | nil hclean => exact hclean
  | cons _ hread _ => exact hread.clean

theorem Members.clean_after {count : Nat} (hmembers : Members ends member count before trees after) : after.Clean := by
  induction hmembers with
  | nil hclean => exact hclean
  | cons _ _ _ ih => exact ih

theorem reads_bodyBackward [Honest member] {steps : Nat} {members result : List Tree} :
    Reads (bodyBackward round ends member steps members) before result after ↔
      ∃ count trees, Members ends member count before trees after ∧ result = trees.reverse ++ members ∧ count ≤ steps ∧
        (ends after.current.kind = true ∨ count = steps) := by
  induction steps generalizing members before with
  | zero =>
    unfold bodyBackward
    rw [parser_enter, reads_pure]
    constructor
    · rintro ⟨hclean, rfl, rfl⟩
      exact ⟨0, [], .nil hclean, rfl, Nat.le_refl 0, .inr rfl⟩
    · rintro ⟨count, trees, hmembers, rfl, hcount, -⟩
      obtain rfl := Nat.le_zero.1 hcount
      cases hmembers with
      | nil hclean => exact ⟨hclean, rfl, rfl⟩
  | succ steps ih =>
    unfold bodyBackward
    rw [parser_enter, reads_get_bind, reads_ite]
    simp only [reads_pure, reads_bind, reads_recover, ih]
    constructor
    · rintro (⟨hends, hclean, rfl, rfl⟩ | ⟨hgoes, tree, middle, hread, _, _, ⟨-, rfl⟩, count, trees, hmembers, rfl, hcount, hend⟩)
      · exact ⟨0, [], .nil hclean, rfl, Nat.zero_le _, .inl hends⟩
      · refine ⟨count + 1, tree.toList ++ trees, .cons (by simpa using hgoes) hread hmembers, ?_, by omega, ?_⟩
        · cases tree <;> simp
        · rcases hend with hend | hend
          · exact .inl hend
          · exact .inr (by omega)
    · rintro ⟨count, trees, hmembers, rfl, hcount, hend⟩
      cases hmembers with
      | nil hclean =>
        have hends : ends after.current.kind = true := by
          rcases hend with hend | hend
          · exact hend
          · omega
        exact .inl ⟨hends, hclean, rfl, rfl⟩
      | @cons count _ middle _ tree trees hgoes hread hmembers =>
        refine .inr ⟨by simp [hgoes], tree, middle, hread, (), _, ⟨hmembers.clean, rfl⟩, count, trees, hmembers, ?_,
          by omega, ?_⟩
        · cases tree <;> simp
        · rcases hend with hend | hend
          · exact .inl hend
          · exact .inr (by omega)

theorem reads_body [Honest member] {steps : Nat} : Reads (body round ends member steps) before trees after ↔
      ∃ count, Members ends member count before trees after ∧ count ≤ steps ∧
        (ends after.current.kind = true ∨ count = steps) := by
  unfold body
  simp only [reads_bind, reads_pure, reads_bodyBackward, List.append_nil]
  constructor
  · rintro ⟨_, _, ⟨count, trees, hmembers, rfl, hcount, hend⟩, -, rfl, rfl⟩
    refine ⟨count, ?_, hcount, hend⟩
    rwa [List.reverse_reverse]
  · rintro ⟨count, hmembers, hcount, hend⟩
    exact ⟨trees.reverse, after, ⟨count, trees, hmembers, rfl, hcount, hend⟩, hmembers.clean_after, by simp, rfl⟩

end NanScript.Parser
