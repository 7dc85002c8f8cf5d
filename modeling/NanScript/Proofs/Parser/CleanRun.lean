import NanScript.Proofs.Parser.Kept

/-!
# Runs without a report

The parser never stops at an error, so what it does on a faultless text has to be told apart from what it does
anywhere else. `Reads reader before result after` says that a reader gets from one state to another and has reported
nothing at either end. No reader withdraws a report, and none panics without one (`Honest`), so nothing has been
reported in between either: a run without a report is a chain of runs without a report. Every reader can then be
opened by rewriting, and what comes out is a condition on the tokens.
-/

namespace NanScript.Parser

variable {α β : Type}

namespace State

/-- Nothing has been reported. -/
structure Clean (state : State) : Prop where
  silent : state.errors = #[]
  calm : state.panicking = false

/-- A panic begins with a report. -/
def Coherent (state : State) : Prop := state.panicking = true → state.errors ≠ #[]

variable {state : State}

theorem Clean.coherent (hclean : state.Clean) : state.Coherent := by
  intro hpanic
  rw [hclean.calm] at hpanic
  contradiction

theorem Coherent.clean (hcoherent : state.Coherent) (hsilent : state.errors = #[]) : state.Clean := by
  refine ⟨hsilent, ?_⟩
  cases hpanic : state.panicking with
  | false => rfl
  | true => exact absurd hsilent (hcoherent hpanic)

/-! ### Reports stay -/

theorem errors_report_ne (state : State) (token : Token) (problem : ParseProblem) :
    (state.report token problem).errors ≠ #[] := by
  simp [report]

theorem coherent_errorAt (hcoherent : state.Coherent) (token : Token) (problem : ParseProblem) :
    (state.errorAt token problem).Coherent := by
  unfold errorAt
  split
  · exact hcoherent
  · intro _
    exact errors_report_ne state token problem

theorem errors_errorAt (hcoherent : state.Coherent) (token : Token) (problem : ParseProblem) :
    (state.errorAt token problem).errors ≠ #[] := by
  unfold errorAt
  split
  · rename_i hpanic
    exact hcoherent hpanic
  · exact errors_report_ne state token problem

theorem errors_of_errorAt {token : Token} {problem : ParseProblem}
    (hsilent : (state.errorAt token problem).errors = #[]) : state.errors = #[] := by
  unfold errorAt at hsilent
  split at hsilent
  · exact hsilent
  · exact absurd hsilent (errors_report_ne state token problem)

theorem coherent_pull (tokens : List Token) (hcoherent : state.Coherent) : (pull tokens state).Coherent := by
  fun_induction pull tokens state with
  | case1 => exact hcoherent
  | case2 => exact hcoherent
  | case3 token rest state _ moved _ ih => exact ih (@coherent_errorAt moved hcoherent _ _)
  | case4 => exact hcoherent

theorem errors_of_pull {tokens : List Token} (hsilent : (pull tokens state).errors = #[]) : state.errors = #[] := by
  fun_induction pull tokens state with
  | case1 => exact hsilent
  | case2 => exact hsilent
  | case3 token rest state _ moved _ ih => exact @errors_of_errorAt moved _ _ (ih hsilent)
  | case4 => exact hsilent

theorem coherent_advance (hcoherent : state.Coherent) : state.advance.Coherent := by
  unfold advance
  exact coherent_pull _ hcoherent

theorem errors_of_advance (hsilent : state.advance.errors = #[]) : state.errors = #[] := by
  unfold advance at hsilent
  exact @errors_of_pull { state with previous := state.current } _ hsilent

end State

/-! ### Honest readers -/

/-- Every report is kept, and panic comes only with one. -/
def Honestly (before after : State) : Prop :=
  (before.Coherent → after.Coherent) ∧ (after.errors = #[] → before.errors = #[])

instance : Stepping Honestly where
  refl _ := ⟨id, id⟩
  trans h h' := ⟨h'.1 ∘ h.1, h.2 ∘ h'.2⟩
  advance _ := ⟨State.coherent_advance, State.errors_of_advance⟩
  errorAt _ _ _ := ⟨fun hcoherent => State.coherent_errorAt hcoherent _ _, State.errors_of_errorAt⟩
  report _ _ _ := ⟨fun _ _ => State.errors_report_ne _ _ _, fun hsilent => absurd hsilent (State.errors_report_ne _ _ _)⟩
  calm _ := ⟨fun _ => nofun, id⟩
  change _ _ _ _ _ := ⟨id, id⟩

/-- A reader that keeps every report, and panics only with one. -/
abbrev Honest (reader : Parser α) : Prop := Keeps Honestly reader

/-! ### Runs without a report -/

/-- A reader gets from one state to another, and nothing has been reported at either end. -/
def Reads (reader : Parser α) (before : State) (result : α) (after : State) : Prop :=
  before.Clean ∧ reader before = (result, after) ∧ after.Clean

variable {before after : State} {reader : Parser α}

theorem Reads.clean {result : α} (hreads : Reads reader before result after) : before.Clean := hreads.1

theorem Reads.clean_after {result : α} (hreads : Reads reader before result after) : after.Clean := hreads.2.2

@[simp] theorem reads_pure {result value : α} :
    Reads (pure value) before result after ↔ before.Clean ∧ result = value ∧ after = before := by
  constructor
  · rintro ⟨hclean, hrun, -⟩
    obtain ⟨rfl, rfl⟩ := Prod.mk.injEq .. ▸ hrun
    exact ⟨hclean, rfl, rfl⟩
  · rintro ⟨hclean, rfl, rfl⟩
    exact ⟨hclean, rfl, hclean⟩

/-- A run without a report is a chain of runs without a report. -/
@[simp] theorem reads_bind {next : α → Parser β} [hfirst : Honest reader]
    [hrest : ∀ result, Honest (next result)] {result : β} : Reads (reader >>= next) before result after ↔
      ∃ value middle, Reads reader before value middle ∧ Reads (next value) middle result after := by
  constructor
  · rintro ⟨hclean, hrun, hclean'⟩
    have hrest' : next (reader before).1 (reader before).2 = (result, after) := hrun
    have hsilent : (reader before).2.errors = #[] := by
      apply ((hrest (reader before).1).keeps _).2
      rw [hrest']
      exact hclean'.silent
    have hmiddle : (reader before).2.Clean := ((hfirst.keeps before).1 hclean.coherent).clean hsilent
    exact ⟨_, _, ⟨hclean, rfl, hmiddle⟩, hmiddle, hrest', hclean'⟩
  · rintro ⟨value, middle, ⟨hclean, hrun, -⟩, -, hrun', hclean'⟩
    refine ⟨hclean, ?_, hclean'⟩
    change next (reader before).1 (reader before).2 = _
    rw [hrun]
    exact hrun'

@[simp] theorem reads_map {change : α → β} {result : β} :
    Reads (change <$> reader) before result after ↔ ∃ value, Reads reader before value after ∧ result = change value := by
  constructor
  · rintro ⟨hclean, hrun, hclean'⟩
    have hrun' : (change (reader before).1, (reader before).2) = (result, after) := hrun
    obtain ⟨rfl, rfl⟩ := Prod.mk.injEq .. ▸ hrun'
    exact ⟨_, ⟨hclean, rfl, hclean'⟩, rfl⟩
  · rintro ⟨value, ⟨hclean, hrun, hclean'⟩, rfl⟩
    refine ⟨hclean, ?_, hclean'⟩
    change (change (reader before).1, (reader before).2) = _
    rw [hrun]

theorem reads_ite {condition : Prop} [Decidable condition] {positive negative : Parser α} {result : α} :
    Reads (if condition then positive else negative) before result after ↔
      (condition ∧ Reads positive before result after) ∨ (¬ condition ∧ Reads negative before result after) := by
  split <;> simp_all

theorem reads_get_bind {next : State → Parser α} {result : α} :
    Reads (get >>= next) before result after ↔ Reads (next before) before result after := Iff.rfl

theorem reads_check_bind {kind : TokenKind} {next : Bool → Parser α} {result : α} :
    Reads (check kind >>= next) before result after ↔ Reads (next (before.check kind)) before result after := Iff.rfl

theorem reads_previous_bind {next : Token → Parser α} {result : α} :
    Reads (previous >>= next) before result after ↔ Reads (next before.previous) before result after := Iff.rfl

@[simp] theorem reads_get {state : State} :
    Reads get before state after ↔ before.Clean ∧ state = before ∧ after = before := reads_pure

/-! ### Reports -/

variable {problem : ParseProblem} {result : Unit}

@[simp] theorem not_reads_errorAtCurrent : ¬ Reads (errorAtCurrent problem) before result after := by
  rintro ⟨hclean, hrun, hclean'⟩
  have hafter : before.errorAt before.current problem = after := congrArg Prod.snd hrun
  exact State.errors_errorAt hclean.coherent _ _ (hafter ▸ hclean'.silent)

@[simp] theorem not_reads_refuse {tree : Option Tree} : ¬ Reads (refuse problem) before tree after := by
  simp [refuse]

@[simp] theorem not_reads_error : ¬ Reads (error problem) before result after := by
  rintro ⟨hclean, hrun, hclean'⟩
  have hafter : before.errorAt before.previous problem = after := congrArg Prod.snd hrun
  exact State.errors_errorAt hclean.coherent _ _ (hafter ▸ hclean'.silent)

@[simp] theorem not_reads_semanticError : ¬ Reads (semanticError problem) before result after := by
  rintro ⟨hclean, hrun, hclean'⟩
  have hafter : before.report before.previous problem = after := congrArg Prod.snd hrun
  exact State.errors_report_ne _ _ _ (hafter ▸ hclean'.silent)

@[simp] theorem reads_recover : Reads recover before result after ↔ before.Clean ∧ after = before := by
  unfold recover
  constructor
  · rintro ⟨hclean, hrun, -⟩
    have hafter : (if before.panicking then handle synchronize else pure () : Parser Unit) before = (result, after) := hrun
    rw [hclean.calm] at hafter
    exact ⟨hclean, (congrArg Prod.snd hafter).symm⟩
  · rintro ⟨hclean, rfl⟩
    refine ⟨hclean, ?_, hclean⟩
    change (if after.panicking then handle synchronize else pure () : Parser Unit) after = _
    rw [hclean.calm]
    rfl

end NanScript.Parser
