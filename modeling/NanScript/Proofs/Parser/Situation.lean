import NanScript.Proofs.Forest
import NanScript.Proofs.Parser.CleanRun

/-!
# What readers find and leave

The parser makes a tree of every text, faultless or not. Whatever is wrong with a text, a reader leaves the scope, the class and
the loops around it as it found them, and puts the nodes it makes behind the others.

`Leads before held reader after made` says so: where the trees `held` wait for a parent in a setting of the mode `before`, the
reader leaves the trees `made` in a setting of the mode `after`. Going on to other tokens and reporting what is wrong with them
is `Quiet` and changes none of it.
-/

namespace NanScript

/-- The local variable that a node mentions. -/
def Form.local? : Form → Option Nat
  | var _ symbol | assign _ symbol _ | varDecl _ symbol _ _ => symbol.local?
  | _ => none

namespace Parser

variable {α β : Type}

namespace State

/-- What neither tokens nor reports belong to. -/
def core (state : State) : Arena Form × Context := (state.arena, state.context)

theorem core_errorAt (state : State) (token : Token) (problem : ParseProblem) : (state.errorAt token problem).core = state.core := by
  unfold errorAt
  split <;> rfl

theorem core_pull (tokens : List Token) (state : State) : (pull tokens state).core = state.core := by
  fun_induction pull tokens state with
  | case1 => rfl
  | case2 => rfl
  | case3 token rest state _ moved _ ih => exact ih.trans (core_errorAt moved _ _)
  | case4 => rfl

theorem core_advance (state : State) : state.advance.core = state.core := core_pull _ _

end State

/-! ### Quiet readers -/

def SameCore (before after : State) : Prop := after.core = before.core

instance : Moving SameCore where
  refl _ := rfl
  trans h h' := h'.trans h
  advance := State.core_advance
  errorAt := State.core_errorAt
  report _ _ _ := rfl
  calm _ := rfl

/-- A reader that only goes on to other tokens and reports what is wrong. -/
abbrev Quiet (reader : Parser α) : Prop := Keeps SameCore reader

theorem Quiet.same {reader : Parser α} [quiet : Quiet reader] (state : State) : (reader state).2.core = state.core := quiet.keeps state

/-! ### Assertions about states -/

/-- From a state with the property `before`, the reader gets to a result and a state with the property `after`. -/
def Turns (before : State → Prop) (reader : Parser α) (after : α → State → Prop) : Prop :=
  ∀ state, before state → after (reader state).1 (reader state).2

namespace Turns

variable {before : State → Prop} {reader : Parser α} {next : α → Parser β} {after : β → State → Prop}

protected theorem bind {between : α → State → Prop} (hreader : Turns before reader between)
    (hnext : ∀ result, Turns (between result) (next result) after) : Turns before (reader >>= next) after :=
  fun state hbefore => hnext _ _ (hreader state hbefore)

protected theorem map {change : α → β} (hreader : Turns before reader fun result => after (change result)) :
    Turns before (change <$> reader) after := hreader

/-- What does not depend on the state can be assumed. -/
theorem assume {fact : Prop} {after : α → State → Prop} (hreader : fact → Turns before reader after) :
    Turns (fun state => before state ∧ fact) reader after := fun state hbefore => hreader hbefore.2 state hbefore.1

theorem imp (between : State → Prop) {fact : Prop} {after : α → State → Prop} (hbefore : ∀ state, before state → between state ∧ fact)
    (hreader : fact → Turns between reader after) : Turns before reader after :=
  fun state hstate => hreader (hbefore state hstate).2 state (hbefore state hstate).1

theorem change (between : State → Prop) {change : State → State} {next : Unit → Parser β}
    (hchange : ∀ state, before state → between (change state)) (hnext : Turns between (next ()) after) :
    Turns before (modify change >>= next) after := fun state hstate => hnext _ (hchange state hstate)

theorem here {next : State → Parser β} (hnext : ∀ state, before state → Turns (· = state) (next state) after) :
    Turns before (MonadState.get >>= next) after := fun state hbefore => hnext state hbefore state rfl

theorem get {next : State → Parser β} (hnext : ∀ state, Turns before (next state) after) :
    Turns before (MonadState.get >>= next) after := fun state hbefore => hnext state state hbefore

theorem weaken {after after' : α → State → Prop} (hreader : Turns before reader after)
    (hafter : ∀ result state, after result state → after' result state) : Turns before reader after' :=
  fun state hbefore => hafter _ _ (hreader state hbefore)

end Turns

/-- The settings in which trees are made, and what is known of the trees. -/
structure Mode where
  around : Context → Prop
  good : Tree → Prop

/-- Trees wait for a parent: others in front, whatever they are, and those that have been made in this mode. -/
structure Situation (mode : Mode) (base held : List Tree) (state : State) : Prop where
  holding : Arena.Holding (base ++ held) state.arena
  fresh : ∀ id node, state.arena.get? id = some node → ∀ var ∈ node.kind.local?, var < state.scope.nextId
  around : mode.around state.context
  good : ∀ tree ∈ held, mode.good tree

namespace Situation

variable {mode mode' : Mode} {base held items : List Tree} {state : State}

theorem congr {state' : State} (hsituation : Situation mode base held state) (hcore : state'.core = state.core) :
    Situation mode base held state' := by
  obtain ⟨harena, hsetting⟩ := Prod.mk.inj hcore
  have hscope : state'.scope = state.scope := congrArg Context.scope hsetting
  exact ⟨harena ▸ hsituation.holding, harena ▸ hscope ▸ hsituation.fresh, hsetting ▸ hsituation.around, hsituation.good⟩

/-- Go on in another mode, with the trees in front. -/
theorem behind (hsituation : Situation mode base held state) (haround : mode'.around state.context) :
    Situation mode' (base ++ held) [] state :=
  ⟨by simpa using hsituation.holding, hsituation.fresh, haround, nofun⟩

/-- Take trees back from those in front. -/
theorem take (hsituation : Situation mode (base ++ held) items state) (haround : mode'.around state.context)
    (hgood : ∀ tree ∈ held ++ items, mode'.good tree) : Situation mode' base (held ++ items) state :=
  ⟨by simpa using hsituation.holding, hsituation.fresh, haround, hgood⟩

/-- All the variables that trees mention have been numbered. -/
theorem bound (hsituation : Situation mode base held state) {tree node : Tree} (htree : tree ∈ base ++ held)
    (hnode : node ∈ tree.nodes) : ∀ var ∈ node.form.local?, var < state.scope.nextId := by
  obtain ⟨next, hget⟩ := (hsituation.holding.stored tree htree node hnode).node
  exact hsituation.fresh _ _ hget

/-- A new node takes the place of the trees that become its children. -/
theorem make (hsituation : Situation mode base held state) {make : Note → Tree} (hnote : ∀ note, (make note).note = note)
    (hchildren : ∀ note, (make note).children.Subperm held) (hlist : ∀ note, (make note).list = items) (hitems : items.Sublist held)
    (hlocal : ∀ note, ∀ var ∈ (make note).form.local?, var < state.scope.nextId) (haround : mode'.around state.context)
    (hgood : ∀ note, mode'.good (make note)) :
    Situation mode' base [((do link items; alloc make : Parser Tree) state).1] ((do link items; alloc make : Parser Tree) state).2 := by
  have hlinked := hsituation.holding.forest.packed.chain (items.map Tree.id)
  set tree := make ⟨(state.arena.chain (items.map Tree.id)).size, state.previous.line⟩ with htree
  have hmade : tree.note = ⟨_, _⟩ := hnote _
  have hline : tree.line = state.previous.line := congrArg Note.line hmade
  have hnode : Arena.Holding (base ++ [tree]) ((state.arena.chain (tree.list.map Tree.id)).alloc tree.form tree.line).2 :=
    hsituation.holding.node ((congrArg Note.id hmade).trans (Arena.size_chain _ _)) (hchildren _) (hlist _ ▸ hitems)
  rw [hlist, hline] at hnode
  refine ⟨hnode, fun id node hnode => ?_, haround, List.forall_mem_singleton.2 (hgood _)⟩
  replace hnode : ((state.arena.chain (items.map Tree.id)).alloc tree.form state.previous.line).2.get? id = some node := hnode
  rw [hlinked.get?_alloc] at hnode
  split at hnode
  · obtain rfl := Option.some.inj hnode
    exact hlocal _
  · have hkind := Arena.map_get?_chain state.arena (items.map Tree.id) id
    rw [hnode] at hkind
    obtain ⟨old, hold, hsame⟩ := Option.map_eq_some_iff.1 hkind.symm
    have hkept : old.kind = node.kind := congrArg Prod.fst hsame
    exact hkept ▸ hsituation.fresh id old hold

end Situation

theorem Turns.pass {mode : Mode} {base held : List Tree} {reader : Parser α} [Quiet reader] {next : α → Parser β}
    {after : β → State → Prop} (hnext : ∀ result, Turns (Situation mode base held) (next result) after) :
    Turns (Situation mode base held) (reader >>= next) after :=
  fun state hsituation => hnext _ _ (hsituation.congr (Quiet.same state))

/-! ### Trees and modes -/

/-- Where the trees `held` wait for a parent, the reader leaves the trees `made`. -/
def Leads (mode : Mode) (held : List Tree) (reader : Parser α) (after : Mode) (made : α → List Tree) : Prop :=
  ∀ base, Turns (Situation mode base held) reader fun result => Situation after base (made result)

/-- The reader makes a tree. -/
def Makes (mode : Mode) (reader : Parser Tree) : Prop := Leads mode [] reader mode fun tree => [tree]

/-- All nodes of the trees have a property. -/
def Mode.each (around : Context → Prop) (ok : Tree → Prop) : Mode := ⟨around, Tree.Each ok⟩

/-- A node with a property that takes trees as its children, those in `items` as a list. -/
structure Fits (around : Context → Prop) (ok : Tree → Prop) (trees items : List Tree) (note : Note) (tree : Tree) : Prop where
  note : tree.note = note
  children : tree.children.Subperm trees
  list : tree.list = items
  numbered : ∀ var ∈ tree.form.local?, ∀ setting, around setting → var < setting.scope.nextId
  ok : ok tree

namespace Leads

variable {mode between after : Mode} {held trees items : List Tree} {reader : Parser α} {next : α → Parser β}
  {made : α → List Tree} {last : β → List Tree}

protected theorem bind (hreader : Leads mode held reader between made) (hnext : ∀ result, Leads between (made result) (next result) after last) :
    Leads mode held (reader >>= next) after last :=
  fun base => (hreader base).bind fun result => hnext result base

protected theorem pure {result : α} (hresult : (made result).Sublist held) : Leads mode held (pure result) mode made :=
  fun _ _ hsituation => ⟨hsituation.holding.sublist ((List.Sublist.refl _).append hresult), hsituation.fresh, hsituation.around,
    fun tree htree => hsituation.good tree (hresult.subset htree)⟩

theorem pass [Quiet reader] (hnext : ∀ result, Leads mode held (next result) after last) :
    Leads mode held (reader >>= next) after last :=
  fun base => .pass fun result => hnext result base

theorem get {next : State → Parser β} (hnext : ∀ state, mode.around state.context → Leads mode held (next state) after last) :
    Leads mode held (MonadState.get >>= next) after last :=
  fun base state hsituation => hnext state hsituation.around base state hsituation

theorem known (hreader : (∀ tree ∈ held, mode.good tree) → Leads mode held reader after made) : Leads mode held reader after made :=
  fun base state hsituation => hreader hsituation.good base state hsituation

theorem given (hreader : ∀ setting, mode.around setting → Leads mode held reader after made) : Leads mode held reader after made :=
  fun base state hsituation => hreader _ hsituation.around base state hsituation

/-- What is there already stays in front. -/
theorem front (hreader : Leads mode held reader after made) (hkeeps : ∀ tree, mode.good tree → after.good tree) (trees : List Tree) :
    Leads mode (trees ++ held) reader after fun result => trees ++ made result := by
  intro base state hsituation
  have hgood := List.forall_mem_append.1 hsituation.good
  have hheld : Situation mode (base ++ trees) held state :=
    ⟨by simpa using hsituation.holding, hsituation.fresh, hsituation.around, hgood.2⟩
  have hmade := hreader _ state hheld
  exact hmade.take hmade.around (List.forall_mem_append.2 ⟨fun tree htree => hkeeps tree (hgood.1 tree htree), hmade.good⟩)

theorem behind (hreader : Leads mode [] reader mode made) (held : List Tree) : Leads mode held reader mode fun result => held ++ made result := by
  simpa using hreader.front (fun _ hgood => hgood) held

theorem change {change : State → State} {next : Unit → Parser β}
    (hkept : ∀ state, ((change state).arena, (change state).scope.nextId) = (state.arena, state.scope.nextId))
    (haround : ∀ state, mode.around state.context → between.around (change state).context)
    (hgood : ∀ tree ∈ held, mode.good tree → between.good tree)
    (hnext : Leads between held (next ()) after last) : Leads mode held (modify change >>= next) after last := by
  intro base state hsituation
  obtain ⟨harena, hids⟩ := Prod.mk.inj (hkept state)
  refine hnext base (change state) ⟨harena ▸ hsituation.holding, ?_, haround _ hsituation.around, fun tree htree => ?_⟩
  · rw [harena, hids]
    exact hsituation.fresh
  · exact hgood tree htree (hsituation.good tree htree)

variable {around : Context → Prop} {ok : Tree → Prop} {make : Note → Tree}

/-- A node with a list of children, which is chained first. -/
theorem makeChain (hmake : ∀ note, Fits mode.around after.good trees items note (make note)) (hitems : items.Sublist trees)
    (haround : ∀ setting, mode.around setting → after.around setting) :
    Leads mode trees (do link items; alloc make) after fun tree => [tree] :=
  fun _ _ hsituation => hsituation.make (fun note => (hmake note).note) (fun note => (hmake note).children)
    (fun note => (hmake note).list) hitems (fun note var hvar => (hmake note).numbered var hvar _ hsituation.around)
    (haround _ hsituation.around) fun note => (hmake note).ok

theorem makeNode (hmake : ∀ note, Fits mode.around after.good trees [] note (make note))
    (haround : ∀ setting, mode.around setting → after.around setting) : Leads mode trees (alloc make) after fun tree => [tree] :=
  makeChain hmake (List.nil_sublist _) haround

theorem chain (hmake : ∀ note, Fits around ok trees items note (make note)) (hitems : items.Sublist trees) :
    Leads (.each around ok) trees (do link items; alloc make) (.each around ok) fun tree => [tree] := by
  refine known fun hgood => makeChain (fun note => { hmake note with ok := ?_ }) hitems fun _ haround => haround
  exact Tree.each_iff.2 ⟨(hmake note).ok, fun child hchild => hgood child ((hmake note).children.subset hchild)⟩

theorem node (hmake : ∀ note, Fits around ok trees [] note (make note)) :
    Leads (.each around ok) trees (alloc make) (.each around ok) fun tree => [tree] :=
  chain hmake (List.nil_sublist _)

end Leads

namespace Makes

variable {mode after : Mode} {held : List Tree} {reader : Parser Tree} {next : Tree → Parser β} {last : β → List Tree}

/-- Go on with one more tree. -/
theorem go (hreader : Makes mode reader) (hnext : ∀ tree, Leads mode (held ++ [tree]) (next tree) after last) :
    Leads mode held (reader >>= next) after last := (Leads.behind hreader held).bind hnext

theorem some (hreader : Makes mode reader) : Leads mode [] (Option.some <$> reader) mode Option.toList := hreader

/-- What is made the same way in every setting of the mode, and known more exactly. -/
theorem exactly {exact : Context → Mode} (haround : ∀ setting, (exact setting).around = (· = setting))
    (hgood : ∀ setting, mode.around setting → ∀ tree, (exact setting).good tree → mode.good tree)
    (hreader : ∀ setting, mode.around setting → Makes (exact setting) reader) : Makes mode reader := by
  intro base state hsituation
  have hmade := hreader state.context hsituation.around (base ++ []) state (hsituation.behind (by rw [haround]))
  have hsetting : (reader state).2.context = state.context := by simpa [haround] using hmade.around
  refine ⟨by simpa using hmade.holding, hmade.fresh, hsetting ▸ hsituation.around, fun tree htree => ?_⟩
  exact hgood _ hsituation.around tree (hmade.good tree htree)

end Makes

/-! ### Repetition -/

section

variable {mode : Mode}

theorem leads_sepBy {round : Activity} {item : List Tree → Parser Tree} (hitem : ∀ items, Makes mode (item items)) (steps : Nat) (first : List Tree) :
    Leads mode first (sepBy round item steps first) mode fun trees => trees := by
  have hbackward : ∀ items : List Tree, Leads mode items.reverse (sepByBackward round item steps items) mode List.reverse := by
    induction steps with
    | zero => exact fun items => .pure (List.Sublist.refl _)
    | succ steps ih =>
      intro items
      unfold sepByBackward
      refine (hitem items).go fun tree => .pass fun accepted => ?_
      rw [← List.reverse_cons]
      split
      · exact ih _
      · exact .pure (List.Sublist.refl _)
  unfold sepBy
  have hreversed := hbackward first.reverse
  rw [List.reverse_reverse] at hreversed
  exact hreversed.bind fun trees => .pure (List.Sublist.refl _)

theorem turns_body {inv : List Tree → State → Prop} {round : Activity} {member : Parser (Option Tree)} {ends : TokenKind → Bool}
    (hmember : ∀ members state, inv members state → ends state.current.kind = false →
      inv (members ++ (member state).1.toList) ((recover : Parser Unit) (member state).2).2) (steps : Nat) :
    Turns (inv []) (body round ends member steps) inv := by
  have hbackward : ∀ members, Turns (inv members.reverse) (bodyBackward round ends member steps members) fun trees => inv trees.reverse := by
    induction steps with
    | zero => exact fun members state hinv => hinv
    | succ steps ih =>
      intro members
      unfold bodyBackward
      refine .here fun state hinv => ?_
      split
      · rintro _ rfl
        exact hinv
      · next hends =>
        rintro _ rfl
        have horder (tree : Option Tree) : members.reverse ++ tree.toList = (tree.toList ++ members).reverse := by cases tree <;> simp
        exact ih _ _ (horder _ ▸ hmember _ _ hinv (Bool.not_eq_true _ ▸ hends))
  exact (hbackward []).bind fun trees state hinv => hinv

theorem leads_body {round : Activity} {member : Parser (Option Tree)} (hmember : Leads mode [] member mode Option.toList) (ends : TokenKind → Bool)
    (steps : Nat) : Leads mode [] (body round ends member steps) mode fun trees => trees :=
  fun base => turns_body (fun members state hsituation _ =>
    (hmember.behind members base state hsituation).congr (@Quiet.same _ recover _ _)) steps

theorem leads_behind {reader : Parser Tree} (hreader : Makes mode reader) (kind : TokenKind) :
    Leads mode [] (behind kind reader) mode Option.toList := by
  refine .pass fun found => ?_
  split
  · exact hreader.some
  · exact .pure (List.Sublist.refl _)

end

end Parser
end NanScript
