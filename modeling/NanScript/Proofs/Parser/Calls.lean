import NanScript.Proofs.Parser.Accounts
import NanScript.Proofs.Token

/-!
# Parsing ends

A token that is missing is reported and not waited for, and recovery may leave the parser where it is. Still every text is read to
its end, with a bounded number of calls for each token. The readers are gone through one by one. A reader that stands in a loop, or
can come to itself again, has a gain: it has read a word, and not spent all that the word pays.
-/

namespace NanScript.Parser

open Accounts State

variable {within : List (Activity × Nat)} {state : State} {steps : Nat}

/-! ### Loops -/

/-- A list that is empty where a token of the given kind stands. -/
theorem accounts_list {round : Activity} (hround : round.rank = 1) {bound : Nat} {item : List Tree → Logged Tree}
    {item' : List Tree → Parser Tree} [∀ items, Keeps Forward (item' items)]
    (hitem : ∀ items, Accounts 1 bound 0 1 (item items) (item' items)) (hsteps : bound ≤ steps) {kind : TokenKind}
    {first : List Tree} {α : Type} {tail : List Tree → Logged α} {tail' : List Tree → Parser α}
    [∀ items, Plain (tail items) (tail' items)] [∀ items, Keeps Forward (tail' items)] :
    Accounts 2 bound 0 2
      (do
        let items ← if ← liftM (check kind) then pure first else sepBy round item steps first
        tail items)
      (do
        let items ← if ← liftM (check kind) then pure first else sepBy round item' steps first
        tail' items) := by
  have hloop (steps limit : Nat) (hlimit : limit ≤ bound ∧ limit ≤ steps) (items : List Tree) :
      Accounts 2 limit 0 2 (sepByBackward round item steps items) (sepByBackward round item' steps items) := by
    induction steps generalizing limit items with
    | zero => exact .never hlimit.2
    | succ steps ih =>
      refine .enter (by rintro rfl; contradiction) ⟨hround, by omega⟩ ?_
      exact .bind (hitem items) (fun tree => .accept nofun (ih (limit - 1) (by omega) _) (.ret _) (by omega)) (by omega)
  have hmany : Accounts 2 bound 0 2 (sepBy round item steps first) (sepBy round item' steps first) :=
    .bind (hloop steps bound ⟨Nat.le_refl _, hsteps⟩ _) (fun _ => .ret _) (by omega)
  have hnone : Accounts 2 bound 0 2 (pure first >>= tail) (pure first >>= tail') :=
    .bind (ret first : Accounts 2 bound 0 0 _ _) (fun _ => .plain) (by omega)
  exact .check (fun within state hstage _ => hnone within state hstage) (.bind hmany (fun _ => .plain) (by omega))

theorem accounts_skipStatement {limit steps : Nat} (hlimit : limit ≤ steps) :
    Accounts 2 limit 0 1 (skipStatement steps) (skipStatement steps) := by
  induction steps generalizing limit with
  | zero => exact .never hlimit
  | succ steps ih =>
    refine .enter (by decide) ⟨rfl, by decide⟩ fun within state hstage => .look rfl ?_
    split
    · exact ret _ within state hstage
    · next hgoes =>
      have hunread : state.current.kind ≠ .eof := by
        rintro heof
        simp [State.check, heof] at hgoes
      exact .step hstage hunread rfl (@ih (limit - 1) (by omega)) (by omega)

theorem accounts_synchronize {limit : Nat} : Accounts 2 limit 0 1 synchronize synchronize := by
  refine .pass fun _ => fun within state hstage => .look rfl ?_
  have hwords : state.words.length < state.rest.length + 1 := by
    obtain ⟨last, -, ⟨-, hrest⟩ | ⟨-, more, hrest, -⟩⟩ := hstage.framed
    all_goals
      unfold words
      split <;> simp [hrest]
  exact accounts_skipStatement (Nat.le_refl _) within state ⟨hstage.framed, hwords, hstage.under⟩

theorem accounts_recover {limit : Nat} : Accounts 2 limit 0 2 recover recover := by
  have hnothing : Accounts 2 limit 0 2 (pure ()) (pure ()) := (ret () : Accounts 2 limit 0 0 _ _).mono (by omega)
  exact .pass fun _ => .ite (accounts_synchronize.handle (by decide)) hnothing

section

variable {round : Activity} {rank bound : Nat} {ends : TokenKind → Bool} {member : Logged (Option Tree)}
  {member' : Parser (Option Tree)} [hforward : Keeps Forward member']

/-- A member has read a word of its own. -/
theorem words_member (hmember : Accounts rank bound 16 3 member member')
    (hstage : Stage rank bound within state) (hunread : state.current.kind ≠ .eof) :
    (member' state).2.Framed ∧ (member' state).2.words.length < state.words.length := by
  have hcost := (hmember within state hstage).cost
  have hpos := Stage.words_pos hunread
  exact ⟨(hforward.keeps state hstage.framed).1, by omega⟩

theorem accounts_body (hround : round.rank = rank ∧ 1 < rank) (hends : ends .eof = true)
    (hmember : Accounts rank bound 16 3 member member') (hsteps : bound ≤ steps) :
    Accounts (rank + 1) bound 0 1 (body round ends member steps) (body round ends member' steps) := by
  have hloop (steps limit : Nat) (hlimit : limit ≤ bound ∧ limit ≤ steps) (members : List Tree) :
      Accounts (rank + 1) limit 0 1 (bodyBackward round ends member steps members)
        (bodyBackward round ends member' steps members) := by
    induction steps generalizing limit members with
    | zero => exact .never hlimit.2
    | succ steps ih =>
      refine .enter (by rintro rfl; exact absurd hround.2 (hround.1 ▸ by decide)) ⟨hround.1, Nat.lt_succ_self _⟩
        fun within state hstage => .look rfl ?_
      split
      · exact ret _ within state hstage
      · next hgoes =>
        have hunread : state.current.kind ≠ .eof := fun heof => hgoes (heof ▸ hends)
        have hstage' := hstage.mono (Nat.le_refl _) hlimit.1
        obtain ⟨hframed, hless⟩ := words_member hmember hstage' hunread
        have hrest (tree : Option Tree) : Accounts (rank + 1) (limit - 1) 0 3
            (do recover; bodyBackward round ends member steps (tree.toList ++ members))
            (do recover; bodyBackward round ends member' steps (tree.toList ++ members)) :=
          .bind (@accounts_recover (limit - 1)) (fun _ => ih (limit - 1) (by omega) _) (by omega)
        exact .spend (.bind (hmember within state hstage') (hrest _ within _ (hstage.later hframed hless (by omega)))) hunread
          (by omega)
  exact .bind (hloop steps bound ⟨Nat.le_refl _, hsteps⟩ _) (fun _ => .ret _) (by omega)

variable (round ends) in
/-- The members of a body are read up to a token where it ends. -/
theorem ends_body (hends : ends .eof = true) (hmember : Accounts rank bound 16 3 member member')
    (hsteps : bound ≤ steps) (hstage : Stage (rank + 1) bound within state) :
    ends (body round ends member' steps state).2.current.kind = true := by
  have hloop (steps limit : Nat) (hlimit : limit ≤ bound ∧ limit ≤ steps) (members : List Tree) (state : State)
      (hstage : Stage (rank + 1) limit within state) :
      ends (bodyBackward round ends member' steps members state).2.current.kind = true := by
    induction steps generalizing limit members state with
    | zero => exact absurd hstage.ahead (by omega)
    | succ steps ih =>
      change ends ((if ends state.current.kind then _ else _ : Parser (List Tree)) state).2.current.kind = true
      split
      · next hend => exact hend
      · next hgoes =>
        have hunread : state.current.kind ≠ .eof := fun heof => hgoes (heof ▸ hends)
        obtain ⟨hframed, hless⟩ := words_member hmember (hstage.mono (Nat.le_succ _) hlimit.1) hunread
        have hstage' : Stage (rank + 1) (limit - 1) within (member' state).2 := hstage.later hframed hless (by omega)
        exact ih (limit - 1) (by omega) _ _ (hstage'.forward ((inferInstance : Keeps Forward recover).keeps _))
  exact hloop steps bound ⟨Nat.le_refl _, hsteps⟩ _ state hstage

end

/-! ### Expressions -/

section

variable {operand : Precedence → Logged Tree} {operand' : Precedence → Parser Tree} {depth : Nat}
  [∀ precedence, Keeps Forward (operand' precedence)]
  (hoperand : ∀ precedence, Accounts 1 depth 16 1 (operand precedence) (operand' precedence))

include hoperand

theorem accounts_primary? (token : Token) :
    Option.Rel (fun logged reader => Keeps Forward reader ∧ Accounts 2 depth 0 2 logged reader)
      (primary? operand depth token) (primary? operand' depth token) := by
  have hgrouping : Accounts 2 depth 0 2 (grouping operand) (grouping operand') :=
    .bind (hoperand _) (fun _ => .pass fun _ => .ret _) (by omega)
  have hunary (op : UnaryOp) : Accounts 2 depth 0 2 (unary operand op) (unary operand' op) :=
    .bind (hoperand _) (fun _ => .plain) (by omega)
  have harray : Accounts 2 depth 0 2 (array operand depth) (array operand' depth) :=
    accounts_list rfl (fun _ => (hoperand _).mono (by omega)) (Nat.le_refl _)
  unfold primary?
  cases token.kind
  all_goals first
    | exact .none
    | exact .some ⟨inferInstance, hgrouping⟩
    | exact .some ⟨inferInstance, hunary _⟩
    | exact .some ⟨inferInstance, harray⟩
    | exact .some ⟨inferInstance, (plain : Accounts 2 depth 0 0 _ _).mono (by omega)⟩

theorem accounts_set (canAssign : Bool) {set : Tree → Note → Tree} {get : Note → Tree} : Accounts 2 depth 0 0
      (do
        if canAssign && (← liftM (check .eq)) then
          liftM advance
          let value ← operand .assignment
          liftM (alloc (set value))
        else liftM (alloc get))
      (do
        if canAssign && (← liftM (check .eq)) then
          liftM advance
          let value ← operand' .assignment
          liftM (alloc (set value))
        else liftM (alloc get)) := by
  have hget : Accounts 2 depth 0 0 (liftM (alloc get)) (liftM (alloc get)) := .plain
  refine .check (fun within state hstage hkind => ?_) (by rw [Bool.and_false]; exact hget)
  cases canAssign with
  | false => exact hget within state hstage
  | true =>
    have hvalue : Accounts 2 depth 0 1 (operand .assignment >>= fun value => liftM (alloc (set value)))
        (operand' .assignment >>= fun value => liftM (alloc (set value))) := .bind (hoperand _) (fun _ => .plain) (by omega)
    exact .step hstage (by rw [hkind]; nofun) rfl hvalue (by omega)

theorem accounts_follow (canAssign : Bool) (operator : Operator) (left : Tree) :
    Accounts 2 depth 0 2 (follow operand depth canAssign operator left)
      (follow operand' depth canAssign operator left) := by
  cases operator with
  | binary op => exact .bind (hoperand _) (fun _ => .plain) (by omega)
  | ternary =>
    exact .bind (t := 1) (hoperand _) (fun _ => .pass fun _ => .bind (hoperand _) (fun _ => .plain) (by omega)) (by omega)
  | call =>
    have hitem (items : List Tree) : Accounts 1 depth 0 1 (argument operand items) (argument operand' items) := by
      have hvalue : Accounts 1 depth 0 1 (operand .assignment) (operand' .assignment) := (hoperand _).mono (by omega)
      exact .ite (.pass fun _ => hvalue) hvalue
    unfold follow call
    exact accounts_list rfl hitem (Nat.le_refl _)
  | index =>
    exact .bind (hoperand _) (fun _ => .pass fun _ => accounts_set hoperand canAssign) (by omega)
  | dot =>
    exact mono (.pass fun _ => .pass fun _ => .pass fun _ => accounts_set hoperand canAssign) (by omega)

theorem accounts_climb (precedence : Precedence) {steps limit : Nat} (hlimit : limit ≤ depth ∧ limit ≤ steps) (tree : Tree) :
    Accounts 2 limit 0 1 (climb operand depth precedence steps tree) (climb operand' depth precedence steps tree) := by
  induction steps generalizing limit tree with
  | zero => exact .never hlimit.2
  | succ steps ih =>
    refine .enter nofun ⟨rfl, by decide⟩ fun within state hstage => .look rfl ?_
    cases hoperator : Operator.ofToken? state.current.kind with
    | none => exact ret _ within state hstage
    | some operator =>
      have hunread : state.current.kind ≠ .eof := by
        intro heof
        rw [heof] at hoperator
        contradiction
      by_cases hbinds : precedence ≤ operator.precedence
      · simp only [hbinds, if_true]
        have hfollow := (accounts_follow hoperand (precedence ≤ .assignment) operator tree).handle (by decide)
        have hrest : Accounts 2 (limit - 1) 0 4 _ _ := .bind hfollow (fun tree => @ih (limit - 1) (by omega) tree) (by omega)
        exact .step hstage hunread rfl hrest (by omega)
      · simp only [hbinds, if_false]
        exact ret _ within state hstage

theorem accounts_assignment (target : Tree) :
    Accounts 2 depth 0 0 (assignment operand target) (assignment operand' target) := by
  refine fun within state hstage => .look rfl ?_
  cases hassigns : assignmentOp? state.current.kind with
  | none => exact ret _ within state hstage
  | some op =>
    have hunread : state.current.kind ≠ .eof := by
      intro heof
      rw [heof] at hassigns
      contradiction
    refine .step hstage hunread rfl (show Accounts 2 depth 0 1 _ _ from ?_) (by omega)
    refine .bind (t := 0) (hoperand _) (fun value => ?_) (by omega)
    cases target with
    | var note name symbol => cases op <;> exact .plain
    | _ => exact .plain

end

theorem accounts_expressionAt (depth : Nat) (precedence : Precedence) :
    Accounts 1 depth 16 1 (expressionAt depth precedence) (expressionAt depth precedence) := by
  induction depth generalizing precedence with
  | zero => exact .never (Nat.le_refl 0)
  | succ depth ih =>
    refine .enter nofun ⟨rfl, by decide⟩ fun within state hstage => ?_
    by_cases heof : state.current.kind = .eof
    · -- At the end of the text nothing is called: no operand starts there.
      have hwords : state.words.length = 0 := by rw [words_eq_nil.2 heof, List.length_nil]
      have hprevious : state.advance.previous = state.current := by
        obtain ⟨last, -, ⟨-, hrest⟩ | ⟨hunread, -⟩⟩ := hstage.framed
        · simp [State.advance, hrest, State.pull]
        · contradiction
      have hread := (framed_advance hstage.framed).2
      have hnone : primary? (expressionAt depth : Precedence → Parser Tree) depth state.advance.previous = none := by
        simp [primary?, hprevious, heof]
      have hnone' : primary? (expressionAt depth : Precedence → Logged Tree) depth state.advance.previous = none := by
        simp [primary?, hprevious, heof]
      refine .after rfl (?_ : AccountsAt 0 0 within state.advance _ _) (by omega)
      refine .look rfl ?_
      rw [hnone, hnone']
      exact plain within _ (hstage.forward (Moving.advance state))
    · have hrest (tree : Tree) : Accounts 2 depth 0 1
          (if precedence ≤ .assignment then handle (assignment (expressionAt depth) tree) else return tree)
          (if precedence ≤ .assignment then handle (assignment (expressionAt depth) tree) else return tree) :=
        .ite ((accounts_assignment ih tree).handle (by decide)) ((ret tree : Accounts 2 depth 0 0 _ _).mono (by omega))
      refine .step hstage heof rfl (show Accounts 2 depth 0 5 _ _ from .pass fun token => ?_) (by omega)
      have hprimary := accounts_primary? ih token
      generalize primary? (expressionAt depth : Precedence → Logged Tree) depth token = logged,
        primary? (expressionAt depth : Precedence → Parser Tree) depth token = reader at hprimary ⊢
      cases hprimary with
      | none => exact (plain : Accounts 2 depth 0 0 _ _).mono (by omega)
      | some hreader =>
        obtain ⟨_, hprimary⟩ := hreader
        refine .bind (t := 2) (hprimary.handle (by decide)) (fun tree => ?_) (by omega)
        exact .bind (accounts_climb ih precedence ⟨Nat.le_refl _, Nat.le_refl _⟩ tree) hrest (by omega)

theorem accounts_expression (depth : Nat) : Accounts 1 depth 16 1 (expression depth) (expression depth) :=
  accounts_expressionAt depth .assignment

/-! ### Statements -/

theorem accounts_keyword {rank limit : Nat} (hstage : Stage rank limit within state) {first : Logged Unit} {first' : Parser Unit}
    [Plain first first'] {logged : Logged Tree} {reader : Parser Tree} (hunread : state.current.kind ≠ .eof)
    (hrun : first' state = ((), state.advance)) (h : Accounts 6 limit 0 5 logged reader) :
    AccountsAt 16 3 within state (do first; some <$> logged) (do first'; some <$> reader) :=
  .step hstage hunread hrun h.map (by omega)

theorem accounts_refuse {rank limit fee : Nat} (problem : ParseProblem) :
    Accounts rank limit 16 fee (liftM (refuse problem)) (liftM (refuse problem)) := by
  intro within state hstage
  obtain ⟨hframed, hsame⟩ := (Moving.errorAt state state.current problem : Forward state _) hstage.framed
  have hread := (framed_advance hframed).2
  refine ⟨rfl, by rintro _ ⟨⟩, ?_⟩
  change 0 + 32 * (state.errorAt state.current problem).advance.words.length + _ ≤ _
  omega

theorem accounts_behind {kind : TokenKind} (hkind : kind ≠ .eof) {rank limit limit' gain fee : Nat} {logged : Logged Tree}
    {reader : Parser Tree} (h : Accounts rank limit' gain fee logged reader) (hless : limit ≤ limit' + 1 ∧ fee ≤ 32) :
    Accounts 1 limit 0 0 (behind kind logged) (behind kind reader) :=
  .accept hkind (.map (h.mono ⟨Nat.le_refl _, Nat.le_refl _, Nat.zero_le _, Nat.le_refl _⟩)) (.ret none) (by omega)

section

variable {depth limit : Nat} (hlimit : limit ≤ depth)

include hlimit

theorem accounts_optionalExpression (ends : TokenKind) :
    Accounts 1 limit 0 1 (optionalExpression depth ends) (optionalExpression depth ends) := by
  refine .check (fun within state hstage _ => ?_) ?_
  · exact (ret none within state hstage).mono (Nat.le_refl _) (by omega)
  · exact .map ((accounts_expression depth).mono (by omega))

theorem accounts_expressionStatement :
    Accounts 1 limit 16 2 (expressionStatement depth) (expressionStatement depth) :=
  .handle (.bind (accounts_expression depth) (fun _ => .pass fun _ => .ret _) (by omega)) (by decide)

theorem accounts_varDeclaration (managed : Bool) :
    Accounts 1 limit 0 1 (varDeclaration depth managed) (varDeclaration depth managed) := by
  refine .handle (.pass fun _ => .pass fun declared => ?_) (by decide)
  obtain ⟨name, symbol⟩ := declared
  have hinitial : Accounts 1 limit 0 0 (behind .eq (expression depth)) (behind .eq (expression depth)) :=
    accounts_behind (by decide) (accounts_expression depth) (by omega)
  exact .bind hinitial (fun _ => .plain) (by omega)

theorem accounts_managedDeclaration : Accounts 1 limit 0 2 (managedDeclaration depth) (managedDeclaration depth) :=
  .handle (.pass fun _ => accounts_varDeclaration hlimit true) (by decide)

theorem accounts_forInitial : Accounts 1 limit 0 2 (forInitial depth) (forInitial depth) := by
  have hnone : Accounts 1 limit 0 0 (pure none : Logged (Option Tree)) (pure none) := .ret none
  have hstatement := (accounts_expressionStatement hlimit).mono (by omega : 1 ≤ 1 ∧ limit ≤ limit ∧ 0 ≤ 16 ∧ 2 ≤ 2)
  exact .accept nofun hnone (.accept nofun (.map (accounts_varDeclaration hlimit false)) (.map hstatement) (by omega)) (by omega)

theorem accounts_forCondition : Accounts 1 limit 0 1 (forCondition depth) (forCondition depth) := by
  refine .bind (t := 0) (accounts_optionalExpression hlimit _) (fun condition => ?_) (by omega)
  cases condition with
  | none => exact .plain
  | some condition => exact .ret condition

section

variable {nested : Logged Tree} {nested' : Parser Tree} [Keeps Forward nested'] (hnested : Accounts 2 limit 16 3 nested nested')

include hnested

omit [Keeps Forward nested'] in
theorem accounts_blockMember : Accounts 2 limit 16 3 (blockMember nested depth) (blockMember nested' depth) := by
  refine fun within state hstage => .look rfl ?_
  split
  · next hkind => exact accounts_keyword hstage (by rw [hkind]; decide) rfl ((accounts_varDeclaration hlimit false).mono (by omega))
  · next hkind => exact accounts_keyword hstage (by rw [hkind]; decide) rfl ((accounts_managedDeclaration hlimit).mono (by omega))
  · exact accounts_refuse _ within state hstage
  · exact accounts_refuse _ within state hstage
  · exact hnested.map within state hstage

theorem accounts_block : Accounts 4 limit 0 2 (block nested depth) (block nested' depth) := by
  have hround : Activity.members.rank = 2 ∧ 1 < 2 := ⟨rfl, by decide⟩
  refine .enter nofun (⟨rfl, by decide⟩ : _ = 3 ∧ _) (.pass fun _ => ?_)
  exact .bind (accounts_body hround rfl (accounts_blockMember hlimit hnested) hlimit) (fun _ => .plain) (by omega)

omit hlimit in
theorem accounts_loopBody : Accounts 2 limit 0 3 (loopBody nested) (loopBody nested') :=
  .pass fun _ => .bind hnested (fun _ => .pass fun _ => .ret _) (by omega)

theorem accounts_keywordStatement? (kind : TokenKind) :
    Option.Rel (fun logged reader => Keeps Forward reader ∧ Accounts 4 limit 0 7 logged reader)
      (keywordStatement? nested depth kind) (keywordStatement? nested' depth kind) := by
  have helse : Accounts 1 limit 0 0 (behind .kwElse nested) (behind .kwElse nested') :=
    accounts_behind (by decide) hnested (by omega)
  have hif : Accounts 4 limit 0 7 (ifStatement nested depth) (ifStatement nested' depth) := by
    refine .pass fun _ => .bind (t := 3) (accounts_expression depth) (fun _ => .pass fun _ => ?_) (by omega)
    exact .bind (t := 0) hnested (fun _ => .bind helse (fun _ => .plain) (by omega)) (by omega)
  have hwhile : Accounts 4 limit 0 7 (whileStatement nested depth) (whileStatement nested' depth) := by
    refine .pass fun _ => .bind (t := 3) (accounts_expression depth) (fun _ => .pass fun _ => ?_) (by omega)
    exact .bind (accounts_loopBody hnested) (fun _ => .plain) (by omega)
  have hfor : Accounts 4 limit 0 7 (forStatement nested depth) (forStatement nested' depth) := by
    refine .pass fun _ => .pass fun _ => .bind (t := 5) (accounts_forInitial hlimit) (fun _ => ?_) (by omega)
    refine .bind (t := 4) (accounts_forCondition hlimit) (fun _ => .pass fun _ => ?_) (by omega)
    refine .bind (t := 3) (accounts_optionalExpression hlimit _) (fun _ => .pass fun _ => ?_) (by omega)
    exact .bind (accounts_loopBody hnested) (fun _ => .plain) (by omega)
  have hreturn : Accounts 4 limit 0 7 (returnStatement depth) (returnStatement depth) :=
    .bind (accounts_optionalExpression hlimit _) (fun _ => .plain) (by omega)
  have hblock := (accounts_block hlimit hnested).mono (by omega : 4 ≤ 4 ∧ limit ≤ limit ∧ 0 ≤ 0 ∧ 2 ≤ 7)
  have hjump (make : Note → Tree) : Accounts 4 limit 0 7 (liftM (loopJump make)) (liftM (loopJump make)) :=
    (plain : Accounts 4 limit 0 0 _ _).mono (by omega)
  unfold keywordStatement?
  split
  · exact .some ⟨inferInstance, hif⟩
  · exact .some ⟨inferInstance, hwhile⟩
  · exact .some ⟨inferInstance, hfor⟩
  · exact .some ⟨inferInstance, hreturn⟩
  · exact .some ⟨inferInstance, hjump _⟩
  · exact .some ⟨inferInstance, hjump _⟩
  · exact .some ⟨inferInstance, hblock⟩
  · exact .none

end

end

theorem accounts_statement (depth : Nat) : Accounts 2 (depth - 1) 16 3 (statement depth) (statement depth) := by
  induction depth with
  | zero => exact .never (Nat.le_refl 0)
  | succ depth ih =>
    refine .enter nofun (⟨rfl, by decide⟩ : _ = 1 ∧ _) fun within state hstage => .look rfl ?_
    have hkeyword := accounts_keywordStatement? (Nat.sub_le depth 1) ih state.current.kind
    have hunread (hkeyword : keywordStatement? (statement depth : Parser Tree) depth state.current.kind ≠ none) : state.current.kind ≠ .eof :=
      fun heof => hkeyword (by rw [heof]; rfl)
    generalize keywordStatement? (statement depth : Logged Tree) depth state.current.kind = logged,
      keywordStatement? (statement depth : Parser Tree) depth state.current.kind = reader at hkeyword hunread ⊢
    cases hkeyword with
    | none => exact accounts_expressionStatement (Nat.le_refl depth) within state hstage
    | some hreader => exact .step hstage (hunread nofun) rfl (hreader.2.handle (by decide)) (by omega)

/-! ### Declarations -/

section

variable (depth : Nat)

theorem accounts_parameters : Accounts 2 (depth - 1) 0 2 (parameters depth) (parameters depth) := by
  refine .pass fun first => .pass fun _ => ?_
  exact accounts_list rfl (fun _ => .handle .plain (by decide)) (Nat.sub_le depth 1)

theorem accounts_function : Accounts 5 (depth - 1) 0 5 (function depth) (function depth) := by
  have hbody : Accounts 4 (depth - 1) 0 4 (parametersAndBody depth) (parametersAndBody depth) := by
    refine .pass fun _ => .pass fun _ => .pass fun _ => .bind (t := 2) (accounts_parameters depth) (fun _ => .pass fun _ => ?_)
      (by omega)
    exact .bind (accounts_block (Nat.sub_le depth 1) (accounts_statement depth)) (fun _ => .pass fun _ => .pass fun _ => .ret _)
      (by omega)
  refine .enter nofun (⟨rfl, by decide⟩ : _ = 4 ∧ _) (.pass fun _ => .pass fun _ => .pass fun _ => .pass fun _ => ?_)
  exact .bind hbody (fun _ => .plain) (by omega)

theorem accounts_method : Accounts 5 (depth - 1) 16 3 (method depth) (method depth) :=
  .accept nofun (accounts_function depth).map (accounts_refuse _) (by omega)

theorem accounts_classDeclaration : Accounts 6 (depth - 1) 0 2 (classDeclaration depth) (classDeclaration depth) := by
  have hround : Activity.methods.rank = 5 ∧ 1 < 5 := ⟨rfl, by decide⟩
  refine .handle (.pass fun _ => .pass fun _ => .pass fun _ => .pass fun _ => .pass fun _ => .pass fun _ => ?_) (by decide)
  exact .bind (accounts_body hround rfl (accounts_method depth) (Nat.sub_le depth 1)) (fun _ => .plain) (by omega)

theorem accounts_declaration : Accounts 5 (depth - 1) 16 3 (declaration depth) (declaration depth) := by
  refine fun within state hstage => .look rfl ?_
  split
  · next hkind => exact accounts_keyword hstage (by rw [hkind]; decide) rfl ((accounts_function depth).mono (by omega))
  · next hkind => exact accounts_keyword hstage (by rw [hkind]; decide) rfl ((accounts_classDeclaration depth).mono (by omega))
  · next hkind =>
    exact accounts_keyword hstage (by rw [hkind]; decide) rfl ((accounts_varDeclaration (Nat.sub_le depth 1) false).mono (by omega))
  · next hkind =>
    exact accounts_keyword hstage (by rw [hkind]; decide) rfl ((accounts_managedDeclaration (Nat.sub_le depth 1)).mono (by omega))
  · exact accounts_refuse _ within state hstage

theorem accounts_declarations : Accounts 6 (depth - 1) 0 1
      (do
        let declarations ← body .declarations (· == .eof) (declaration depth) depth
        liftM (link declarations)
        return declarations)
      (do
        let declarations ← body .declarations (· == .eof) (declaration depth) depth
        liftM (link declarations)
        return declarations) := by
  have hround : Activity.declarations.rank = 5 ∧ 1 < 5 := ⟨rfl, by decide⟩
  exact .bind (accounts_body hround rfl (accounts_declaration depth) (Nat.sub_le _ 1)) (fun _ => .plain) (by omega)

variable {depth} in
theorem ends_declarations {state after : State} {trees : List Tree}
    (hstage : Stage 6 (depth - 1) within state) (hrun : (body .declarations (· == .eof) (declaration depth) depth : Parser _) state = (trees, after)) :
    after.current.kind = .eof ∧ after.rest = [after.current] := by
  have hends := beq_iff_eq.1 (ends_body .declarations (· == .eof) rfl (accounts_declaration depth) (Nat.sub_le _ 1) hstage)
  have hforward := (inferInstance : Keeps Forward (body .declarations (· == .eof) (declaration depth) depth)).keeps state hstage.framed
  rw [hrun] at hends hforward
  obtain ⟨last, -, ⟨rfl, hrest⟩ | ⟨hunread, -⟩⟩ := hforward.1
  · exact ⟨hends, hrest⟩
  · contradiction

end

/-- Tokens that stand for lexical errors are passed over one by one. -/
theorem skips_pull {tokens : List Token} (hsome : tokens ≠ []) (state : State) :
    ∃ skipped token rest, tokens = skipped ++ token :: rest ∧ (∀ other ∈ skipped, other.kind = .error) ∧
      (token.kind ≠ .error ∨ rest = []) ∧ (pull tokens state).current = token := by
  fun_induction pull tokens state with
  | case1 state => contradiction
  | case2 last state => exact ⟨[], last, [], rfl, by simp, .inr rfl, rfl⟩
  | case3 token rest state hmore moved hlexical ih =>
    obtain ⟨skipped, next, after, hrest, hskipped, hnext, hcurrent⟩ := ih hmore
    refine ⟨token :: skipped, next, after, ?_, List.forall_mem_cons.2 ⟨hlexical, hskipped⟩, hnext, hcurrent⟩
    rw [hrest, List.cons_append]
  | case4 token rest state hmore moved hfine => exact ⟨[], token, rest, rfl, by simp, .inl hfine, rfl⟩

/-- Every text is read to its end, with at most 32 calls and rounds for each token. Between two entries into the same reader, and
between two rounds of a loop, a word is read, and no depth or number of rounds is used up. -/
theorem parsing_ends (source : String) :
    (Logged.parse source).1 = (program (depthBound (tokens source)) : Parser _) (State.initial (tokens source)) ∧
      (Logged.parse source).1.2.current.kind = .eof ∧ (Logged.parse source).1.2.rest = [(Logged.parse source).1.2.current] ∧
      (Logged.parse source).2.length ≤ 32 * (tokens source).length ∧ (∀ call ∈ (Logged.parse source).2, call.Fine) ∧
      ∀ state : State, state.rest ≠ [] → ∃ skipped token rest, state.rest = skipped ++ token :: rest ∧
        (∀ other ∈ skipped, other.kind = .error) ∧ (token.kind ≠ .error ∨ rest = []) ∧ state.advance.current = token := by
  obtain ⟨more, last, htokens, hlast, hmore⟩ := tokens_framed source
  have hlength : (tokens source).length = more.length + 1 := by rw [htokens, List.length_append, List.length_singleton]
  have hdepth : depthBound (tokens source) = more.length + 4 := by rw [depthBound, hlength]
  obtain ⟨hframed, hwords⟩ : (State.initial (tokens source)).advance.Framed ∧
      (State.initial (tokens source)).advance.words.length ≤ more.length := htokens ▸ framed_pull hlast hmore _
  have hstage : Stage 6 (depthBound (tokens source) - 1) [] (State.initial (tokens source)).advance := ⟨hframed, by omega, nofun⟩
  obtain ⟨hsame, hfine, hcost⟩ := accounts_declarations (depthBound (tokens source)) [] _ hstage
  obtain ⟨hend, hrest⟩ := ends_declarations hstage rfl
  have hrun : (Logged.parse source).1 = (program (depthBound (tokens source)) : Parser _) (State.initial (tokens source)) := hsame
  refine ⟨hrun, hrun ▸ hend, hrun ▸ hrest, ?_, hfine, fun state hrest => skips_pull hrest _⟩
  change (Logged.parse source).2.length + _ + _ ≤ _ at hcost
  omega

end NanScript.Parser
