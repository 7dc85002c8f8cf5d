import NanScript.Proofs.Parser.Logged

/-!
# A budget for the parser

Every word that is read pays for 32 lines of the log, and a reader may add a fee of its own for what it does where
nothing is read. `Accounts` says so of a reader, and that no line is about something that has begun before without a word
having been read since. What may begin in what at the same place is given by ranks: only what has a lower rank.
-/

namespace NanScript.Parser

open State

variable {α β : Type} {activity : Activity}

/-! ### No word comes back -/

/-- The tokens stay framed, and no word comes back. -/
def Forward (before after : State) : Prop :=
  before.Framed → after.Framed ∧ after.words.length ≤ before.words.length

theorem framed_pull {last : Token} (hlast : last.kind = .eof) {more : List Token} (hmore : ∀ token ∈ more, token.kind ≠ .eof)
    (state : State) :
    (pull (more ++ [last]) state).Framed ∧ (pull (more ++ [last]) state).words.length ≤ more.length := by
  induction more generalizing state with
  | nil => exact ⟨⟨last, hlast, .inl ⟨rfl, rfl⟩⟩, by simp [pull, words, hlast]⟩
  | cons token more ih =>
    obtain ⟨htoken, hrest⟩ := List.forall_mem_cons.1 hmore
    rw [List.cons_append, pull]
    · split
      · exact ⟨(ih hrest _).1, Nat.le_succ_of_le (ih hrest _).2⟩
      · exact ⟨⟨last, hlast, .inr ⟨htoken, more, rfl, hrest⟩⟩, by simp [words, htoken]⟩
    · simp

theorem framed_advance {state : State} (hframed : state.Framed) :
    state.advance.Framed ∧ state.advance.words.length ≤ state.words.length - 1 := by
  unfold State.advance
  obtain ⟨last, hlast, ⟨hcurrent, hrest⟩ | ⟨hcurrent, more, hrest, hmore⟩⟩ := hframed
  · rw [hrest]
    exact ⟨⟨last, hlast, .inl ⟨rfl, rfl⟩⟩, by simp [pull, words, hlast]⟩
  · have hwords : state.words.length - 1 = more.length := by simp [words, hcurrent, hrest]
    rw [hwords, hrest]
    exact framed_pull hlast hmore _

theorem forward_of_same {before after : State} (hcurrent : after.current = before.current) (hrest : after.rest = before.rest) :
    Forward before after := by
  intro hframed
  unfold Framed words
  rw [hcurrent, hrest]
  exact ⟨hframed, Nat.le_refl _⟩

instance : Stepping Forward where
  refl _ hframed := ⟨hframed, Nat.le_refl _⟩
  trans hfirst hsecond hframed := by
    obtain ⟨hframed, hless⟩ := hfirst hframed
    obtain ⟨hframed, hless'⟩ := hsecond hframed
    exact ⟨hframed, Nat.le_trans hless' hless⟩
  advance _ hframed := ⟨(framed_advance hframed).1, Nat.le_trans (framed_advance hframed).2 (Nat.sub_le _ _)⟩
  errorAt state token problem := by
    unfold errorAt
    split <;> exact forward_of_same rfl rfl
  report _ _ _ := forward_of_same rfl rfl
  calm _ := forward_of_same rfl rfl
  change _ _ _ _ _ := forward_of_same rfl rfl

/-! ### Lines -/

/-- What can begin in what before a word is read: only what has a lower rank. -/
def Activity.rank : Activity → Nat
  | .precedence | .handler | .exhausted => 0
  | .statement | .elements | .arguments | .parameters | .operators | .skipping => 1
  | .members => 2
  | .block => 3
  | .function => 4
  | .methods | .declarations => 5

/-- Nothing is used up, and since anything of the same kind around it has begun, a word has been read. -/
def Call.Fine (call : Call) : Prop :=
  call.activity ≠ .exhausted ∧ ∀ outer ∈ call.within, outer.1 = call.activity → call.ahead < outer.2

/-- A place where only what has a rank below `rank` may begin. -/
structure Stage (rank limit : Nat) (within : List (Activity × Nat)) (state : State) : Prop where
  framed : state.Framed
  ahead : state.words.length < limit
  under : ∀ outer ∈ within, state.words.length ≤ outer.2 ∧ (state.words.length = outer.2 → rank ≤ outer.1.rank)

namespace Stage

variable {rank limit : Nat} {within : List (Activity × Nat)} {state : State}

section

variable (hstage : Stage rank limit within state)

include hstage

theorem forward {after : State} (hforward : Forward state after) : Stage rank limit within after := by
  obtain ⟨hframed, hless⟩ := hforward hstage.framed
  refine ⟨hframed, Nat.lt_of_le_of_lt hless hstage.ahead, fun outer houter => ?_⟩
  obtain ⟨hahead, hrank⟩ := hstage.under outer houter
  exact ⟨Nat.le_trans hless hahead, fun hsame => hrank (by omega)⟩

theorem mono {rank' limit' : Nat} (hrank : rank' ≤ rank) (hlimit : limit ≤ limit') : Stage rank' limit' within state :=
  ⟨hstage.framed, Nat.lt_of_lt_of_le hstage.ahead hlimit,
    fun outer houter => ⟨(hstage.under outer houter).1, fun hsame => Nat.le_trans hrank ((hstage.under outer houter).2 hsame)⟩⟩

omit hstage in
theorem words_pos (hunread : state.current.kind ≠ .eof) : 0 < state.words.length :=
  List.length_pos_iff.2 (mt words_eq_nil.1 hunread)

/-- When a word has been read, everything may begin. -/
theorem later {after : State} (hframed : after.Framed) (hless : after.words.length < state.words.length) {rank' limit' : Nat}
    (hlimit : limit ≤ limit' + 1) : Stage rank' limit' within after := by
  have hahead := hstage.ahead
  refine ⟨hframed, by omega, fun outer houter => ?_⟩
  have houter := (hstage.under outer houter).1
  exact ⟨by omega, by omega⟩

theorem fine (hrank : activity.rank < rank) (hfresh : activity ≠ .exhausted) :
    Call.Fine ⟨activity, state.words.length, within⟩ := by
  refine ⟨hfresh, fun outer houter hsame => ?_⟩
  obtain ⟨hahead, hunder⟩ := hstage.under outer houter
  refine Nat.lt_of_le_of_ne hahead fun heq => ?_
  have hless := hsame ▸ hunder heq
  exact Nat.not_lt_of_le hless hrank

theorem enter (hrank : activity.rank < rank) :
    Stage activity.rank limit ((activity, state.words.length) :: within) state := by
  refine ⟨hstage.framed, hstage.ahead, List.forall_mem_cons.2 ⟨⟨Nat.le_refl _, fun _ => Nat.le_refl _⟩, fun outer houter => ?_⟩⟩
  obtain ⟨hahead, hunder⟩ := hstage.under outer houter
  exact ⟨hahead, fun hsame => Nat.le_trans (Nat.le_of_lt hrank) (hunder hsame)⟩

end

end Stage

/-! ### Accounts -/

/-- The log belongs to what the reader does at a place. Its lines are fine, and they are paid for by the words that are read and
the fee; `gain` is left of the first word. -/
structure AccountsAt (gain fee : Nat) (within : List (Activity × Nat)) (state : State) (logged : Logged α) (reader : Parser α) :
    Prop where
  same : (logged within state).1 = reader state
  fine : ∀ call ∈ (logged within state).2, call.Fine
  cost : (logged within state).2.length + 32 * (reader state).2.words.length + min gain (32 * state.words.length) ≤
    32 * state.words.length + fee

/-- The same wherever things of these ranks may begin, and not too many words are ahead. -/
def Accounts (rank limit gain fee : Nat) (logged : Logged α) (reader : Parser α) : Prop :=
  ∀ within state, Stage rank limit within state → AccountsAt gain fee within state logged reader

/-- A reader that leaves no line. -/
class Plain (logged : Logged α) (reader : Parser α) : Prop where
  run (within : List (Activity × Nat)) (state : State) : logged within state = (reader state, [])

instance (result : α) : Plain (pure result) (pure result) := ⟨fun _ _ => rfl⟩

instance (reader : Parser α) : Plain (liftM reader) (liftM reader) := ⟨fun _ _ => rfl⟩

instance : Plain get get := ⟨fun _ _ => rfl⟩

instance (change : State → State) : Plain (modify change) (modify change) := ⟨fun _ _ => rfl⟩

instance (logged : Logged α) (reader : Parser α) (next : α → Logged β) (next' : α → Parser β) [first : Plain logged reader]
    [rest : ∀ result, Plain (next result) (next' result)] : Plain (logged >>= next) (reader >>= next') := by
  refine ⟨fun within state => ?_⟩
  change (next _ within _ |>.1, _ ++ _) = _
  rw [first.run, (rest _).run]
  rfl

section

variable {rank limit gain fee rank' limit' gain' fee' total : Nat} {within : List (Activity × Nat)} {state : State}
  {logged : Logged α} {reader : Parser α} {next : α → Logged β} {next' : α → Parser β} {result : α}

section

variable (h : AccountsAt gain fee within state logged reader)

include h

theorem AccountsAt.mono (hgain : gain' ≤ gain) (hfee : fee ≤ fee') :
    AccountsAt gain' fee' within state logged reader := ⟨h.same, h.fine, by have := h.cost; omega⟩

theorem AccountsAt.bind (hnext : AccountsAt 0 fee' within (reader state).2 (next (reader state).1) (next' (reader state).1)) :
    AccountsAt gain (fee + fee') within state (logged >>= next) (reader >>= next') := by
  have hrun : (logged >>= next) within state = ((next (reader state).1 within (reader state).2).1,
      (logged within state).2 ++ (next (reader state).1 within (reader state).2).2) := by
    rw [← h.same]
    rfl
  have hcost := h.cost
  have hcost' : _ + 32 * ((reader >>= next') state).2.words.length + _ ≤ _ := hnext.cost
  constructor
  · rw [hrun]
    exact hnext.same
  · rw [hrun]
    exact List.forall_mem_append.2 ⟨h.fine, hnext.fine⟩
  · rw [hrun, List.length_append]
    omega

theorem AccountsAt.spend (hunread : state.current.kind ≠ .eof) (hless : gain ≤ 32 ∧ fee ≤ gain + fee') :
    AccountsAt 0 fee' within state logged reader := by
  have hpos := Stage.words_pos hunread
  have hcost := h.cost
  exact ⟨h.same, h.fine, by omega⟩

end

theorem Accounts.mono (h : Accounts rank limit gain fee logged reader)
    (hless : rank ≤ rank' ∧ limit' ≤ limit ∧ gain' ≤ gain ∧ fee ≤ fee') : Accounts rank' limit' gain' fee' logged reader :=
  fun within state hstage => (h within state (hstage.mono hless.1 hless.2.1)).mono hless.2.2.1 hless.2.2.2

theorem Accounts.bind [hreader : Keeps Forward reader] {t : Nat} (h : Accounts rank' limit' gain' fee logged reader)
    (hnext : ∀ result, Accounts rank limit 0 t (next result) (next' result))
    (hless : rank' ≤ rank ∧ limit ≤ limit' ∧ gain ≤ gain' ∧ fee + t ≤ total) :
    Accounts rank limit gain total (logged >>= next) (reader >>= next') := fun within state hstage =>
  ((h within state (hstage.mono hless.1 hless.2.1)).bind
    (hnext _ within _ (hstage.forward (hreader.keeps state)))).mono hless.2.2.1 hless.2.2.2

theorem Accounts.ret (result : α) : Accounts rank limit 0 0 (pure result) (pure result) := fun _ state _ =>
  ⟨rfl, by rintro _ ⟨⟩, by
    change 0 + 32 * state.words.length + _ ≤ _
    omega⟩

/-- What leaves no line costs nothing. -/
theorem Accounts.plain [Plain logged reader] [hreader : Keeps Forward reader] : Accounts rank limit 0 0 logged reader := by
  intro within state hstage
  have hless := (hreader.keeps state hstage.framed).2
  have hrun : logged within state = (reader state, []) := Plain.run within state
  refine ⟨by rw [hrun], by rw [hrun]; rintro _ ⟨⟩, ?_⟩
  rw [hrun, List.length_nil]
  omega

theorem Accounts.pass [Plain logged reader] [Keeps Forward reader]
    (hnext : ∀ result, Accounts rank limit 0 fee (next result) (next' result)) :
    Accounts rank limit 0 fee (logged >>= next) (reader >>= next') :=
  .bind (Accounts.plain : Accounts rank limit 0 0 _ _) hnext (by omega)

theorem Accounts.map {change : α → β} (h : Accounts rank limit gain fee logged reader) :
    Accounts rank limit gain fee (change <$> logged) (change <$> reader) := by
  intro within state hstage
  obtain ⟨hsame, hfine, hcost⟩ := h within state hstage
  have hrun : (change <$> logged) within state =
      ((change (reader state).1, (reader state).2), (logged within state).2 ++ []) := by
    rw [← hsame]
    rfl
  constructor
  · rw [hrun]
    rfl
  · rwa [hrun, List.append_nil]
  · rw [hrun, List.append_nil]
    exact hcost

theorem Accounts.enter (hfresh : activity ≠ .exhausted) (hrank : activity.rank = rank' ∧ rank' < rank)
    (h : Accounts rank' limit gain fee logged reader) :
    Accounts rank limit gain (fee + 1) (enter activity logged) (enter activity reader) := by
  intro within state hstage
  obtain ⟨rfl, hrank⟩ := hrank
  obtain ⟨hsame, hfine, hcost⟩ := h _ state (hstage.enter hrank)
  rw [parser_enter]
  refine ⟨hsame, List.forall_mem_cons.2 ⟨hstage.fine hrank hfresh, hfine⟩, ?_⟩
  change (_ :: _ : List Call).length + _ + _ ≤ _
  rw [List.length_cons]
  omega

theorem Accounts.handle (h : Accounts rank limit gain fee logged reader) (hrank : 0 < rank) :
    Accounts rank limit gain (fee + 1) (handle logged) (handle reader) := by
  intro within state hstage
  obtain ⟨hsame, hfine, hcost⟩ := h within state hstage
  rw [parser_handle]
  refine ⟨hsame, List.forall_mem_cons.2 ⟨hstage.fine hrank nofun, hfine⟩, ?_⟩
  change (_ :: _ : List Call).length + _ + _ ≤ _
  rw [List.length_cons]
  omega

theorem Accounts.ite {condition : Prop} [Decidable condition] {other : Logged α} {other' : Parser α}
    (h : Accounts rank limit gain fee logged reader) (h' : Accounts rank limit gain fee other other') :
    Accounts rank limit gain fee (if condition then logged else other) (if condition then reader else other') := by
  split
  · exact h
  · exact h'

/-- Nothing is used up where there are no words to be read. -/
theorem Accounts.never (hlimit : limit ≤ 0) : Accounts rank limit gain fee logged reader := fun _ _ hstage =>
  absurd (Nat.lt_of_lt_of_le hstage.ahead hlimit) (Nat.not_lt_zero _)

theorem AccountsAt.after [hplain : Plain logged reader] {after : State} (hrun : reader state = (result, after))
    (hnext : AccountsAt gain' fee within after (next result) (next' result))
    (hpays : 32 * after.words.length + fee + min gain (32 * state.words.length) ≤
      32 * state.words.length + total + min gain' (32 * after.words.length)) :
    AccountsAt gain total within state (logged >>= next) (reader >>= next') := by
  have hlogged : (logged >>= next) within state = next result within after := by
    change ((next _ within _).1, _ ++ _) = _
    rw [hplain.run, hrun]
    rfl
  have hreader : (reader >>= next') state = next' result after := by
    change next' (reader state).1 (reader state).2 = _
    rw [hrun]
  obtain ⟨hsame, hfine, hcost⟩ := hnext
  constructor
  · rw [hlogged, hreader, hsame]
  · rwa [hlogged]
  · rw [hlogged, hreader]
    omega

theorem AccountsAt.look [Plain logged reader] (hrun : reader state = (result, state))
    (hnext : AccountsAt gain fee within state (next result) (next' result)) :
    AccountsAt gain fee within state (logged >>= next) (reader >>= next') :=
  .after hrun hnext (Nat.le_refl _)

/-- A word that is read pays. -/
theorem AccountsAt.step [Plain logged reader] (hstage : Stage rank limit within state) (hunread : state.current.kind ≠ .eof)
    (hrun : reader state = (result, state.advance)) (hnext : Accounts rank' limit' 0 fee (next result) (next' result))
    (hless : limit ≤ limit' + 1 ∧ gain + fee ≤ 32 + total) :
    AccountsAt gain total within state (logged >>= next) (reader >>= next') := by
  have hpos := Stage.words_pos hunread
  obtain ⟨hframed, hread⟩ := framed_advance hstage.framed
  exact .after hrun (hnext within _ (hstage.later hframed (by omega) hless.1)) (by omega)

theorem Accounts.check {kind : TokenKind} {next : Bool → Logged β} {next' : Bool → Parser β}
    (hyes : ∀ within state, Stage rank limit within state → state.current.kind = kind →
      AccountsAt gain fee within state (next true) (next' true))
    (hno : Accounts rank limit gain fee (next false) (next' false)) :
    Accounts rank limit gain fee (liftM (Parser.check kind) >>= next) (liftM (Parser.check kind) >>= next') := by
  intro within state hstage
  refine .look (show Parser.check kind state = (state.check kind, state) from rfl) ?_
  cases hcheck : state.check kind with
  | true => exact hyes within state hstage (by simpa [State.check] using hcheck)
  | false => exact hno within state hstage

theorem Accounts.accept {kind : TokenKind} {next : Bool → Logged β} {next' : Bool → Parser β} (hkind : kind ≠ .eof)
    (hyes : Accounts rank' limit' 0 fee' (next true) (next' true))
    (hno : Accounts rank limit gain fee (next false) (next' false)) (hless : limit ≤ limit' + 1 ∧ gain + fee' ≤ 32 + fee) :
    Accounts rank limit gain fee (liftM (Parser.accept kind) >>= next) (liftM (Parser.accept kind) >>= next') := by
  intro within state hstage
  have hrun : (liftM (Parser.accept kind) : Parser Bool) state = if state.check kind then (true, state.advance) else (false, state) := by
    unfold Parser.accept
    change (if state.check kind then _ else _ : Parser Bool) state = _
    split <;> rfl
  cases hcheck : state.check kind with
  | true =>
    have hcurrent : state.current.kind = kind := by simpa [State.check] using hcheck
    exact .step hstage (hcurrent ▸ hkind) (by rw [hrun, hcheck]; rfl) hyes hless
  | false => exact .look (by rw [hrun, hcheck]; rfl) (hno within state hstage)

end

end NanScript.Parser
