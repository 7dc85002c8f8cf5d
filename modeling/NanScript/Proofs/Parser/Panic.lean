import NanScript.Proofs.Parser.CleanRun

/-!
# Panic behind a recovery

Recovery ends the panic before it passes over tokens, not after. A token that stands for a lexical error is reported when it
is passed over, and the parser panics again. So the parser goes on in panic exactly if there was such a token, and then the
next syntax error is lost.
-/

namespace NanScript.Parser

namespace State

/-- The tokens that stand for lexical errors. -/
def isLexical (token : Token) : Bool := token.kind == .error

/-- The report on the first lexical error of a text. -/
def firstLexical (tokens : List Token) : Option ParseError :=
  (tokens.find? isLexical).map fun token => ⟨token.line, token.errorLocation, .lexical token.lexeme⟩

/-- Tokens have been passed over, and nothing else has been reported but what is wrong with them. -/
structure Passes (passed : List Token) (before after : State) : Prop where
  rest : before.rest = passed ++ after.rest
  panicking : after.panicking = (before.panicking || passed.any isLexical)
  errors : after.errors.toList = before.errors.toList ++ if before.panicking then [] else (firstLexical passed).toList

theorem Passes.refl (state : State) : Passes [] state state where
  rest := rfl
  panicking := by simp
  errors := by simp [firstLexical]

/-- Of two stretches only the first can be reported on, unless it is in order. -/
theorem Passes.trans {passed passed' : List Token} {before middle after : State} (h : Passes passed before middle)
    (h' : Passes passed' middle after) : Passes (passed ++ passed') before after where
  rest := by rw [h.rest, h'.rest, List.append_assoc]
  panicking := by rw [h'.panicking, h.panicking, List.any_append, Bool.or_assoc]
  errors := by
    rw [h'.errors, h.errors, h.panicking, List.append_assoc]
    congr 1
    cases before.panicking with
    | true => rfl
    | false =>
      cases hfirst : passed.find? isLexical with
      | none =>
        have hnone : passed.any isLexical = false := by simpa [List.any_eq_false] using hfirst
        simp [firstLexical, List.find?_append, hfirst, hnone]
      | some token =>
        have hsome : passed.any isLexical = true := List.any_eq_true.2 ⟨token, List.mem_of_find?_eq_some hfirst,
          List.find?_some hfirst⟩
        simp [firstLexical, List.find?_append, hfirst, hsome]

theorem rest_errorAt (state : State) (token : Token) (problem : ParseProblem) :
    (state.errorAt token problem).rest = state.rest := by
  unfold errorAt
  split <;> rfl

theorem passes_errorAt {token : Token} {rest : List Token} {state : State} (hrest : state.rest = token :: rest)
    (hlexical : token.kind = .error) :
    Passes [token] state (errorAt { state with current := token, rest } token (.lexical token.lexeme)) := by
  have hfirst : isLexical token = true := by rw [isLexical, hlexical, beq_self_eq_true]
  unfold errorAt
  split
  · next hpanic => exact ⟨hrest, by simp_all, by simp_all⟩
  · next hcalm => exact ⟨hrest, by simp [hfirst], by simp_all [report, firstLexical]⟩

theorem passes_pull {tokens : List Token} {state : State} (hrest : state.rest = tokens) :
    ∃ passed, Passes passed state (pull tokens state) := by
  fun_induction pull tokens state with
  | case1 state => exact ⟨[], .refl state⟩
  | case2 last state => exact ⟨[], ⟨hrest, by simp, by simp [firstLexical]⟩⟩
  | case3 token rest state _ moved hlexical ih =>
    obtain ⟨passed, hpassed⟩ := ih (rest_errorAt moved token _)
    exact ⟨token :: passed, (passes_errorAt hrest hlexical).trans hpassed⟩
  | case4 token rest state _ moved hfine =>
    exact ⟨[token], ⟨hrest, by simp [isLexical, hfine, moved], by simp [firstLexical, isLexical, hfine, moved]⟩⟩

theorem passes_advance (state : State) : ∃ passed, Passes passed state state.advance := by
  obtain ⟨passed, hpassed⟩ := @passes_pull state.rest { state with previous := state.current } rfl
  exact ⟨passed, hpassed.rest, hpassed.panicking, hpassed.errors⟩

theorem run_get_bind {α : Type} (next : State → Parser α) (state : State) : (get >>= next) state = next state state := rfl

theorem passes_skipStatement (steps : Nat) (state : State) :
    ∃ passed, Passes passed state ((skipStatement steps : Parser Unit) state).2 := by
  induction steps generalizing state with
  | zero => exact ⟨[], .refl state⟩
  | succ steps ih =>
    unfold skipStatement
    simp only [parser_enter, parser_liftM]
    rw [run_get_bind]
    split
    · exact ⟨[], .refl state⟩
    · obtain ⟨passed, hpassed⟩ := passes_advance state
      obtain ⟨passed', hpassed'⟩ := ih state.advance
      exact ⟨passed ++ passed', hpassed.trans hpassed'⟩

/-- The state behind a recovery. -/
def synchronize (state : State) : State := ((Parser.synchronize : Parser Unit) state).2

end State

open State

/-- Behind a recovery the parser panics exactly if a lexical error has been passed over. The first such error is reported,
and then the next syntax error is not. -/
theorem panic_behind_recovery (state : State) :
    ∃ passed, state.rest = passed ++ state.synchronize.rest ∧
      (state.synchronize.panicking = true ↔ ∃ token ∈ passed, token.kind = .error) ∧
      state.synchronize.errors.toList = state.errors.toList ++ (firstLexical passed).toList ∧
      ∀ token problem, (state.synchronize.errorAt token problem).errors =
        if ∃ skipped ∈ passed, skipped.kind = .error then state.synchronize.errors
        else state.synchronize.errors.push ⟨token.line, token.errorLocation, problem⟩ := by
  obtain ⟨passed, hpassed⟩ := passes_skipStatement (state.rest.length + 1) { state with panicking := false }
  have hpanic : state.synchronize.panicking = true ↔ ∃ token ∈ passed, token.kind = .error := by
    have hsynchronize : state.synchronize.panicking = (false || passed.any isLexical) := hpassed.panicking
    rw [hsynchronize]
    simp [isLexical]
  refine ⟨passed, hpassed.rest, hpanic, hpassed.errors, fun token problem => ?_⟩
  unfold errorAt
  simp only [hpanic]
  split <;> rfl

/-- The `@` that recovery passes over keeps the missing name behind `var` from being reported. -/
theorem silent_behind_recovery :
    (parse "1 2 @ var").errors.map ParseError.problem = [.expected "declaration", .lexical "Unexpected character."] ∧
      (parse "var").errors.map ParseError.problem = [.expected "variable name"] := by
  decide +kernel

end NanScript.Parser
