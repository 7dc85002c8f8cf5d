import NanScript.Proofs.Parser.Input

/-!
# Where the parser stands

`Stands context ahead state` is all that the grammar has to know of a state: the words ahead, and the scopes, the class and
the loops around them. `Awaits` adds that nothing stands against reading on.

A reader that has got through without a report is taken apart step by step: each step tells a word that was ahead, or how
the context has changed. `Succeeds reader before post` is the other direction. It says that a reader gets through, and what
can be said of its result and of the state behind it, and it has a rule for each step that a reader can take.
-/

namespace NanScript.Parser

open Grammar State

variable {α β : Type}

def Context.inLoop (context : Context) : Bool := context.loopDepth != 0

/-- The parser is in a function, between two statements. -/
structure Context.Inside (context : Context) : Prop where
  steady : context.scope.Steady
  nested : context.scope.depth ≠ 0

/-- The words ahead, and what is around them. -/
structure Stands (context : Context) (ahead : List Grammar.Word) (state : State) : Prop where
  framed : state.Framed
  words : state.words = ahead
  context : state.context = context

/-- As `Stands`; nothing has been reported, and no word ahead stands for a lexical error. -/
structure Awaits (context : Context) (ahead : List Grammar.Word) (state : State) : Prop extends Stands context ahead state where
  clean : state.Clean
  fine : ∀ word ∈ ahead, word.kind ≠ .error

section

variable {context : Context} {ahead rest : List Grammar.Word} {word : Grammar.Word} {state : State}

section

variable (h : Stands context ahead state)

include h

theorem Stands.scope : state.scope = context.scope := congrArg Context.scope h.context

theorem Stands.kind : state.current.kind = headKind ahead := by
  obtain rfl := h.words
  cases hwords : state.words with
  | nil => exact words_eq_nil.1 hwords
  | cons word rest => exact (kind_of_words hwords).1

theorem Stands.unread (hnonempty : ahead ≠ []) : state.current.kind ≠ .eof := fun hend =>
  hnonempty (h.words.symm.trans (words_eq_nil.2 hend))

theorem Stands.check (kind : TokenKind) : state.check kind = (headKind ahead == kind) := by
  rw [State.check, h.kind]

end

theorem Stands.lexeme {kind : TokenKind} {text : String} (h : Stands context (⟨kind, text⟩ :: rest) state)
    (hopen : kind.isOpen = true) : state.current.lexeme = text := by
  obtain ⟨hkind, hword⟩ := kind_of_words h.words
  rw [Token.word_eq_open hkind hopen] at hword
  exact congrArg Grammar.Word.text hword

/-! ### Readers that got through -/

section

variable {before middle after : State} {kind : TokenKind} {what : String} {done : Unit} {result : α} {next : Unit → Parser α}

section

variable (h : Stands context ahead before)

include h

/-- The word that has been read is that of the current token. -/
theorem Stands.step (hunread : before.current.kind ≠ .eof) (hreads : Reads advance before done after) :
    ∃ rest, ahead = before.current.word :: rest ∧ after.previous = before.current ∧ Stands context rest after := by
  have hmoves := hreads.moves h.framed hunread
  exact ⟨after.words, h.words.symm.trans hmoves.words, hmoves.previous, hmoves.framed, rfl, hmoves.context.trans h.context⟩

/-- Kinds whose words are all alike. -/
def IsSign (kind : TokenKind) : Prop := kind ≠ .eof ∧ kind.isOpen = false

instance (kind : TokenKind) : Decidable (IsSign kind) := inferInstanceAs (Decidable (_ ∧ _))

theorem Stands.sign (hkind : before.current.kind = kind) (hsign : IsSign kind) (hreads : Reads advance before done after) :
    ∃ rest, ahead = sign kind :: rest ∧ Stands context rest after := by
  obtain ⟨rest, rfl, -, hafter⟩ := h.step (hkind ▸ hsign.1) hreads
  exact ⟨rest, by rw [Token.word_eq_sign hkind hsign.2], hafter⟩

theorem Stands.consume [∀ done, Honest (next done)] (hsign : IsSign kind)
    (hreads : Reads (Parser.consume kind what >>= next) before result after) :
    ∃ rest middle, ahead = Grammar.sign kind :: rest ∧ Stands context rest middle ∧ Reads (next ()) middle result after := by
  obtain ⟨_, middle, hconsume, hreads⟩ := reads_bind.1 hreads
  obtain ⟨hkind, hadvance⟩ := reads_consume.1 hconsume
  obtain ⟨rest, hwords, hmiddle⟩ := h.sign hkind hsign hadvance
  exact ⟨rest, middle, hwords, hmiddle, hreads⟩

/-- A reader behind a word that tells what comes. -/
theorem Stands.keyword {reader : Parser α} [Honest reader] {result : Option α} (hkind : before.current.kind = kind)
    (hsign : IsSign kind) (hreads : Reads (Parser.advance >>= fun _ => some <$> reader) before result after) :
    ∃ rest middle value, ahead = Grammar.sign kind :: rest ∧ Stands context rest middle ∧ result = some value ∧
      Reads reader middle value after := by
  obtain ⟨_, middle, hadvance, hreads⟩ := reads_bind.1 hreads
  obtain ⟨value, hread, rfl⟩ := reads_map.1 hreads
  obtain ⟨rest, hwords, hmiddle⟩ := h.sign hkind hsign hadvance
  exact ⟨rest, middle, value, hwords, hmiddle, rfl, hread⟩

theorem Stands.identifier (hreads : Reads (Parser.consume .identifier what) before done after) :
    ∃ rest, ahead = Grammar.identifier after.previous.lexeme :: rest ∧ Stands context rest after := by
  obtain ⟨hkind, hadvance⟩ := reads_consume.1 hreads
  obtain ⟨rest, rfl, hprevious, hafter⟩ := h.step (by simp [hkind]) hadvance
  exact ⟨rest, by rw [hprevious, Token.word_eq_open hkind rfl]; rfl, hafter⟩

theorem Stands.named {next : String → Parser α} [∀ name, Honest (next name)] (hreads : Reads (do
      Parser.consume .identifier what
      let name ← intern (← previous).lexeme
      next name) before result after) :
    ∃ name rest middle, ahead = Grammar.identifier name :: rest ∧ Nameable name ∧ middle.previous.lexeme = name ∧
      Stands context rest middle ∧ Reads (next name) middle result after := by
  obtain ⟨_, middle, hconsume, hreads⟩ := reads_bind.1 hreads
  rw [reads_previous_bind] at hreads
  obtain ⟨_, _, hintern, hreads⟩ := reads_bind.1 hreads
  obtain ⟨-, hname, rfl, rfl⟩ := reads_intern.1 hintern
  obtain ⟨rest, hwords, hmiddle⟩ := h.identifier hconsume
  exact ⟨_, rest, _, hwords, hname, rfl, hmiddle, hreads⟩

theorem Stands.declared {next : String × Symbol → Parser α} [∀ declared, Honest (next declared)] (hreads : Reads (do
      Parser.consume .identifier what
      let declared ← declarePrevious
      next declared) before result after) :
    ∃ name rest middle, ahead = Grammar.identifier name :: rest ∧ Nameable name ∧ name ∉ context.scope.here ∧
      Stands { context with scope := context.scope.declare name } rest middle ∧
      Reads (next (name, context.scope.nextSymbol)) middle result after := by
  obtain ⟨_, middle, hconsume, hreads⟩ := reads_bind.1 hreads
  obtain ⟨_, _, hdeclare, hreads⟩ := reads_bind.1 hreads
  obtain ⟨-, hname, hnew, rfl, rfl⟩ := reads_declarePrevious.1 hdeclare
  obtain ⟨rest, hwords, hframed, hahead, rfl⟩ := h.identifier hconsume
  refine ⟨_, rest, _, hwords, hname, Scope.declaredHere?_eq_none.1 hnew, ?_, hreads⟩
  exact ⟨hframed, hahead, rfl⟩

theorem Stands.modifyScope [∀ done, Honest (next done)] {change : Scope → Scope}
    (hreads : Reads (Parser.modifyScope change >>= next) before result after) :
    ∃ middle, Stands { context with scope := change context.scope } ahead middle ∧ Reads (next ()) middle result after := by
  obtain ⟨_, _, hmodify, hreads⟩ := reads_bind.1 hreads
  obtain ⟨-, rfl⟩ := reads_modifyScope.1 hmodify
  obtain ⟨hframed, hwords, rfl⟩ := h
  refine ⟨_, ?_, hreads⟩
  exact ⟨hframed, hwords, rfl⟩

omit h in
theorem Stands.setLoops [∀ done, Honest (next done)] (change : Nat → Nat) (h : Stands context ahead before)
    (hreads : Reads (modify (fun state => { state with loopDepth := change state.loopDepth }) >>= next) before result after) :
    ∃ middle, Stands { context with loopDepth := change context.loopDepth } ahead middle ∧
      Reads (next ()) middle result after := by
  obtain ⟨_, _, hmodify, hreads⟩ := reads_bind.1 hreads
  obtain ⟨-, rfl, -⟩ := reads_modify.1 hmodify
  obtain ⟨hframed, hwords, rfl⟩ := h
  refine ⟨_, ?_, hreads⟩
  exact ⟨hframed, hwords, rfl⟩

theorem Stands.setClass [∀ done, Honest (next done)] {name : Option String}
    (hreads : Reads (modify (fun state => { state with className := name }) >>= next) before result after) :
    ∃ middle, Stands { context with className := name } ahead middle ∧ Reads (next ()) middle result after := by
  obtain ⟨_, _, hmodify, hreads⟩ := reads_bind.1 hreads
  obtain ⟨-, rfl, -⟩ := reads_modify.1 hmodify
  obtain ⟨hframed, hwords, rfl⟩ := h
  refine ⟨_, ?_, hreads⟩
  exact ⟨hframed, hwords, rfl⟩

theorem Stands.link [∀ done, Honest (next done)] {trees : List Tree}
    (hreads : Reads (Parser.link trees >>= next) before result after) :
    ∃ middle, Stands context ahead middle ∧ Reads (next ()) middle result after := by
  obtain ⟨_, _, hlink, hreads⟩ := reads_bind.1 hreads
  obtain ⟨-, rfl⟩ := reads_link.1 hlink
  refine ⟨_, ?_, hreads⟩
  exact ⟨h.framed, h.words, h.context⟩

theorem Stands.alloc {make : Note → Tree} {tree : Tree} (hreads : Reads (Parser.alloc make) before tree after) :
    ∃ note, tree = make note ∧ Stands context ahead after := by
  obtain ⟨-, rfl, rfl⟩ := reads_alloc.1 hreads
  exact ⟨_, rfl, h.framed, h.words, h.context⟩

end

end

/-! ### Readers that succeed -/

/-- The reader gets through without a report, and what it makes and where it stops are as wanted. -/
def Succeeds (reader : Parser α) (before : State) (post : α → State → Prop) : Prop :=
  ∃ result after, Reads reader before result after ∧ post result after

variable {reader : Parser α} {before : State} {post : α → State → Prop} {make : Note → Tree} {kind : TokenKind}

theorem Succeeds.mono {post' : α → State → Prop} (h : Succeeds reader before post)
    (hpost : ∀ result after, post result after → post' result after) : Succeeds reader before post' := by
  obtain ⟨result, after, hreads, hresult⟩ := h
  exact ⟨result, after, hreads, hpost result after hresult⟩

theorem Succeeds.bind {next : α → Parser β} {post' : β → State → Prop} (h : Succeeds reader before post)
    (hnext : ∀ value middle, post value middle → Succeeds (next value) middle post') :
    Succeeds (reader >>= next) before post' := by
  obtain ⟨value, middle, ⟨hclean, hrun, -⟩, hvalue⟩ := h
  obtain ⟨result, after, ⟨-, hrun', hclean'⟩, hresult⟩ := hnext value middle hvalue
  refine ⟨result, after, ⟨hclean, ?_, hclean'⟩, hresult⟩
  change next (reader before).1 (reader before).2 = _
  rw [hrun, hrun']

theorem Succeeds.map {change : α → β} {post' : β → State → Prop}
    (h : Succeeds reader before fun result => post' (change result)) : Succeeds (change <$> reader) before post' := by
  obtain ⟨result, after, hreads, hresult⟩ := h
  exact ⟨change result, after, reads_map.2 ⟨result, hreads, rfl⟩, hresult⟩

theorem succeeds_get_bind {next : State → Parser α} : Succeeds (get >>= next) before post ↔ Succeeds (next before) before post :=
  Iff.rfl

theorem succeeds_check_bind {next : Bool → Parser α} :
    Succeeds (check kind >>= next) before post ↔ Succeeds (next (before.check kind)) before post := Iff.rfl

theorem succeeds_previous_bind {next : Token → Parser α} :
    Succeeds (previous >>= next) before post ↔ Succeeds (next before.previous) before post := Iff.rfl

theorem intern_of_nameable {text : String} (hname : Nameable text) : intern text = pure text := by
  have hfits : ¬ Interner.maxLength < text.utf8ByteSize := Nat.not_lt.2 hname
  rw [intern, if_neg hfits]

section

variable (h : Awaits context ahead before)

include h

theorem Awaits.pure {value : α} (hpost : post value before) : Succeeds (pure value) before post :=
  ⟨value, before, reads_pure.2 ⟨h.clean, rfl, rfl⟩, hpost⟩

theorem Awaits.modifyScope {change : Scope → Scope} :
    Succeeds (modifyScope change) before fun _ => Awaits { context with scope := change context.scope } ahead := by
  obtain ⟨⟨hframed, hwords, rfl⟩, hclean, hfine⟩ := h
  exact ⟨(), _, reads_modifyScope.2 ⟨hclean, rfl⟩, ⟨hframed, hwords, rfl⟩, ⟨hclean.silent, hclean.calm⟩, hfine⟩

omit h in
theorem Awaits.setLoops (change : Nat → Nat) (h : Awaits context ahead before) :
    Succeeds (modify fun state => { state with loopDepth := change state.loopDepth }) before fun _ =>
      Awaits { context with loopDepth := change context.loopDepth } ahead := by
  obtain ⟨⟨hframed, hwords, rfl⟩, hclean, hfine⟩ := h
  exact ⟨(), _, reads_modify.2 ⟨hclean, rfl, hclean.silent, hclean.calm⟩, ⟨hframed, hwords, rfl⟩,
    ⟨hclean.silent, hclean.calm⟩, hfine⟩

theorem Awaits.setClass {name : Option String} : Succeeds (modify fun state => { state with className := name }) before fun _ =>
      Awaits { context with className := name } ahead := by
  obtain ⟨⟨hframed, hwords, rfl⟩, hclean, hfine⟩ := h
  exact ⟨(), _, reads_modify.2 ⟨hclean, rfl, hclean.silent, hclean.calm⟩, ⟨hframed, hwords, rfl⟩,
    ⟨hclean.silent, hclean.calm⟩, hfine⟩

theorem Awaits.link {trees : List Tree} : Succeeds (link trees) before fun _ => Awaits context ahead :=
  ⟨(), _, reads_link.2 ⟨h.clean, rfl⟩, ⟨h.framed, h.words, h.context⟩, ⟨h.clean.silent, h.clean.calm⟩, h.fine⟩

theorem Awaits.alloc {post : Tree → State → Prop} (hpost : ∀ note after, Awaits context ahead after → post (make note) after) :
    Succeeds (alloc make) before post :=
  ⟨_, _, reads_alloc.2 ⟨h.clean, rfl, rfl⟩,
    hpost _ _ ⟨⟨h.framed, h.words, h.context⟩, ⟨h.clean.silent, h.clean.calm⟩, h.fine⟩⟩

theorem Awaits.node :
    Succeeds (Parser.alloc make) before fun tree after => (∃ note, tree = make note) ∧ Awaits context ahead after :=
  h.alloc fun note _ hafter => ⟨⟨note, rfl⟩, hafter⟩

end

/-! ### Words -/

theorem Awaits.advance (h : Awaits context (word :: rest) before) :
    Succeeds Parser.advance before fun _ after => after.previous = before.current ∧ Awaits context rest after := by
  have hunread : before.current.kind ≠ .eof := h.unread (by simp)
  have hnext : before.NextFine := by
    obtain ⟨last, -, ⟨rfl, hrest⟩ | ⟨-, more, hrest, -⟩⟩ := h.framed
    · simp [NextFine, hrest]
    · unfold NextFine
      split
      · rename_i token second others htokens
        refine h.fine token.word (h.words ▸ ?_)
        unfold State.words
        rw [if_neg hunread, htokens]
        simp
      · trivial
  have hreads : Reads Parser.advance before () before.shift := reads_advance.2 ⟨h.clean, hnext, rfl⟩
  have hmoves := moves_shift h.framed hunread
  have hwords : before.current.word :: before.shift.words = word :: rest := hmoves.words.symm.trans h.words
  refine ⟨(), _, hreads, hmoves.previous, ⟨hmoves.framed, (List.cons.inj hwords).2, hmoves.context.trans h.context⟩,
    hreads.clean_after, fun other hother => h.fine other (List.mem_cons_of_mem _ hother)⟩

theorem Awaits.skip (h : Awaits context (word :: rest) before) : Succeeds Parser.advance before fun _ => Awaits context rest :=
  h.advance.mono fun _ _ => And.right

theorem Awaits.consume {what : String} (h : Awaits context (sign kind :: rest) before) :
    Succeeds (Parser.consume kind what) before fun _ => Awaits context rest := by
  obtain ⟨_, after, hreads, hafter⟩ := h.skip
  exact ⟨(), after, reads_consume.2 ⟨h.kind, hreads⟩, hafter⟩

theorem Awaits.consumeName {name what : String} (h : Awaits context (identifier name :: rest) before) :
    Succeeds (Parser.consume .identifier what) before fun _ after =>
      after.previous.lexeme = name ∧ Awaits context rest after := by
  obtain ⟨_, after, hreads, hprevious, hafter⟩ := h.advance
  exact ⟨(), after, reads_consume.2 ⟨h.kind, hreads⟩, hprevious ▸ h.lexeme rfl, hafter⟩

theorem Awaits.accept (h : Awaits context (sign kind :: rest) before) :
    Succeeds (Parser.accept kind) before fun found after => found = true ∧ Awaits context rest after := by
  obtain ⟨_, after, hreads, hafter⟩ := h.skip
  exact ⟨true, after, reads_accept.2 (.inl ⟨h.kind, rfl, hreads⟩), rfl, hafter⟩

theorem Awaits.reject (h : Awaits context ahead before) (hother : headKind ahead ≠ kind) :
    Succeeds (Parser.accept kind) before fun found after => found = false ∧ Awaits context ahead after :=
  ⟨false, before, reads_accept.2 (.inr ⟨h.kind ▸ hother, rfl, h.clean, rfl⟩), rfl, h⟩

end

end NanScript.Parser
