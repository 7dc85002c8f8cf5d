import NanScript.Assembly.Program
import NanScript.Proofs.Parser.Frame

/-!
# Names in recovered trees

Whatever is wrong with a text, each scope that is entered is left again. So the initial value of a top-level variable never
mentions a local, all that is declared in a function is local and numbered above what was declared before, and a name that means
a top-level variable has been declared as one.

A `Frame` is what a reader finds around it. Expressions leave the very setting they find and are read in the mode `phrase`;
statements, which declare variables, keep the frame.
-/

namespace NanScript

open List

/-! ### Expressions -/

/-- A node of an expression whose names are looked up in a scope. -/
def Tree.IsPhrase (scope : Scope) : Tree → Prop
  | .var _ name symbol | .assign _ name symbol _ => symbol = scope.resolve name
  | .varDecl .. | .block .. | .ifElse .. | .whileLoop .. | .ret .. | .breakLoop _ | .continueLoop _ | .funcDecl ..
  | .classDecl .. => False
  | _ => True

namespace Parser

open NanScript.Tree

def Mode.phrase (setting : Context) : Mode := .each (· = setting) (IsPhrase setting.scope)

section

variable {setting : Context}

theorem makes_integer (lexeme : String) : Makes (.phrase setting) (integer lexeme) := by
  unfold integer
  split
  · exact .node fun _ => ⟨rfl, .refl _, rfl, by rintro _ ⟨⟩, trivial⟩
  · exact .pass fun _ => .node fun _ => ⟨rfl, .refl _, rfl, by rintro _ ⟨⟩, trivial⟩

theorem makes_newObject : Makes (.phrase setting) newObject :=
  .pass fun _ => .pass fun _ => .pass fun _ => .pass fun _ => .pass fun _ => .node fun _ => ⟨rfl, .refl _, rfl, nofun, trivial⟩

variable (hbound : ∀ name, ∀ var ∈ (setting.scope.resolve name).local?, var < setting.scope.nextId)

include hbound

theorem makes_nameUse (lexeme : String) : Makes (.phrase setting) (nameUse lexeme) := by
  refine .pass fun name => .get fun state hstate => ?_
  have hscope : state.scope = setting.scope := congrArg Context.scope hstate
  have huse : Makes (.phrase setting) (alloc (.var · name (state.scope.resolve name))) :=
    .node fun _ => ⟨rfl, .refl _, rfl, fun var hvar _ hsame => hsame ▸ hbound name var (hscope ▸ hvar), by rw [IsPhrase, hscope]⟩
  dsimp only
  split
  · exact .pass fun _ => huse
  · exact huse

section

variable {operand : Precedence → Parser Tree} (hoperand : ∀ precedence, Makes (.phrase setting) (operand precedence))

include hoperand

omit hbound in
theorem makes_grouping : Makes (.phrase setting) (grouping operand) :=
  (hoperand _).go fun _ => .pass fun _ => .pure (Sublist.refl _)

omit hbound in
theorem makes_unary (op : UnaryOp) : Makes (.phrase setting) (unary operand op) :=
  (hoperand _).go fun _ => .node fun _ => ⟨rfl, .refl _, rfl, nofun, trivial⟩

omit hbound in
theorem makes_array (steps : Nat) : Makes (.phrase setting) (array operand steps) := by
  have hbehind (items : List Tree) : Leads (.phrase setting) items
      (do consume .rbracket "']' after array elements"; link items; alloc (.array · items)) (.phrase setting) fun tree => [tree] :=
    .pass fun _ => .chain (fun _ => ⟨rfl, .refl _, rfl, nofun, trivial⟩) (Sublist.refl _)
  refine .pass fun empty => ?_
  dsimp only
  split
  · exact .bind (.pure (Sublist.refl [])) hbehind
  · exact (leads_sepBy (fun _ => hoperand _) steps []).bind hbehind

theorem makes_primary {steps : Nat} {token : Token} {reader : Parser Tree}
    (hreader : primary? operand steps token = some reader) : Makes (.phrase setting) reader := by
  unfold primary? at hreader
  split at hreader <;> first
    | contradiction
    | obtain rfl := Option.some.inj hreader
  · exact makes_grouping hoperand
  · exact makes_array hoperand steps
  · exact makes_unary hoperand .neg
  · exact makes_unary hoperand .not
  · exact makes_nameUse hbound _
  · exact makes_integer _
  · exact .node fun _ => ⟨rfl, .refl _, rfl, nofun, trivial⟩
  · unfold string
    exact .pass fun _ => .node fun _ => ⟨rfl, .refl _, rfl, nofun, trivial⟩
  · exact .node fun _ => ⟨rfl, .refl _, rfl, nofun, trivial⟩
  · exact .node fun _ => ⟨rfl, .refl _, rfl, nofun, trivial⟩
  · exact .node fun _ => ⟨rfl, .refl _, rfl, nofun, trivial⟩
  · exact makes_newObject

omit hbound in
/-- An operator makes one tree of the operand in front of it and what follows. -/
theorem leads_follow (steps : Nat) (canAssign : Bool) (operator : Operator) (tree : Tree) :
    Leads (.phrase setting) [tree] (follow operand steps canAssign operator tree) (.phrase setting) fun tree => [tree] := by
  cases operator with
  | binary op => exact (hoperand _).go fun right => .node fun _ => ⟨rfl, .refl _, rfl, nofun, trivial⟩
  | ternary =>
    exact (hoperand _).go fun positive => .pass fun _ => (hoperand _).go fun negative =>
      .node fun _ => ⟨rfl, .refl _, rfl, nofun, trivial⟩
  | call =>
    have hargument (before : List Tree) : Makes (.phrase setting) (argument operand before) := by
      unfold argument
      dsimp only
      split
      · exact .pass fun _ => hoperand _
      · exact hoperand _
    have hbehind (arguments : List Tree) : Leads (.phrase setting) ([tree] ++ arguments)
        (do consume .rparen "')' after arguments"; link arguments; alloc (.call · tree arguments)) (.phrase setting) fun tree => [tree] :=
      .pass fun _ => .chain (fun _ => ⟨rfl, .refl _, rfl, nofun, trivial⟩) (sublist_append_right _ _)
    refine .pass fun empty => ?_
    dsimp only
    split
    · exact .bind (.pure (Sublist.refl [tree])) hbehind
    · exact ((leads_sepBy hargument steps []).behind [tree]).bind hbehind
  | index =>
    refine (hoperand _).go fun position => .pass fun _ => .pass fun assigns => ?_
    split
    · exact .pass fun _ => (hoperand _).go fun value => .node fun _ => ⟨rfl, .refl _, rfl, nofun, trivial⟩
    · exact .node fun _ => ⟨rfl, .refl _, rfl, nofun, trivial⟩
  | dot =>
    refine .pass fun _ => .pass fun _ => .pass fun _ => .pass fun assigns => ?_
    split
    · exact .pass fun _ => (hoperand _).go fun value => .node fun _ => ⟨rfl, .refl _, rfl, nofun, trivial⟩
    · exact .node fun _ => ⟨rfl, .refl _, rfl, nofun, trivial⟩

omit hbound in
theorem leads_climb (depth : Nat) (precedence : Precedence) (steps : Nat) (tree : Tree) :
    Leads (.phrase setting) [tree] (climb operand depth precedence steps tree) (.phrase setting) fun tree => [tree] := by
  induction steps generalizing tree with
  | zero => exact .pure (Sublist.refl _)
  | succ steps ih =>
    unfold climb
    refine .get fun state _ => ?_
    split
    · exact .pure (Sublist.refl _)
    · split
      · exact .pass fun _ => (leads_follow hoperand depth _ _ tree).bind ih
      · exact .pure (Sublist.refl _)

/-- A compound assignment has a node of its own for the variable that it reads. -/
theorem leads_assignment (target : Tree) :
    Leads (.phrase setting) [target] (assignment operand target) (.phrase setting) fun tree => [tree] := by
  unfold assignment
  refine .get fun state _ => ?_
  split
  · exact .pure (Sublist.refl _)
  · refine .pass fun _ => (hoperand _).go fun value => .known fun hgood => ?_
    have hvalue : [value].Sublist ([target] ++ [value]) := sublist_append_right _ _
    split
    · next note name symbol =>
      have hsymbol : symbol = setting.scope.resolve name := (each_iff.1 (hgood _ mem_cons_self)).1
      have hnumbered : ∀ var ∈ symbol.local?, ∀ other, other = setting → var < other.scope.nextId :=
        fun var hvar _ hsame => hsame ▸ hbound name var (hsymbol ▸ hvar)
      split
      · exact .node fun _ => ⟨rfl, hvalue.subperm, rfl, hnumbered, hsymbol⟩
      · next op _ =>
        have hcurrent : Makes (.phrase setting) (alloc (.var · name symbol)) := .node fun _ => ⟨rfl, .refl _, rfl, hnumbered, hsymbol⟩
        have hresult (target current : Tree) : Leads (.phrase setting) ([target] ++ [value] ++ [current])
            (alloc (.binary · op current value)) (.phrase setting) fun tree => [tree] :=
          .node fun _ => ⟨rfl, ⟨_, Perm.swap _ _ _, sublist_append_right [target] _⟩, rfl, by rintro _ ⟨⟩, trivial⟩
        exact hcurrent.go fun current => (hresult _ current).bind fun result =>
          .node fun _ => ⟨rfl, .refl _, rfl, hnumbered, hsymbol⟩
    · exact .pass fun _ => .pure (sublist_append_left _ _)

end

theorem makes_expressionAt (depth : Nat) (precedence : Precedence) : Makes (.phrase setting) (expressionAt depth precedence) := by
  have hnull : Makes (.phrase setting) (alloc .null) := .node fun _ => ⟨rfl, .refl _, rfl, nofun, trivial⟩
  induction depth generalizing precedence with
  | zero => exact hnull
  | succ depth ih =>
    unfold expressionAt
    refine .pass fun _ => .pass fun token => ?_
    split
    · exact .pass fun _ => hnull
    · next reader hreader =>
      refine (makes_primary hbound ih hreader).go fun tree => (leads_climb ih depth precedence depth tree).bind fun tree => ?_
      split
      · exact leads_assignment hbound ih tree
      · exact .pure (Sublist.refl _)

end

end Parser

/-! ### Statements -/

/-- A node in a function: what is declared there is local, and top-level variables are among the given ones. -/
def Tree.IsNested (globals : List String) : Tree → Prop
  | .var _ name symbol | .assign _ name symbol _ => symbol = .global → name ∈ globals
  | .varDecl _ _ symbol _ _ => ∃ id, symbol = .localVar id
  | .funcDecl .. | .classDecl .. => False
  | _ => True

/-- A node of the initial value of a top-level variable. -/
def Tree.IsTop (globals : List String) : Tree → Prop
  | .var _ name symbol | .assign _ name symbol _ => symbol.local? = none ∧ (symbol = .global → name ∈ globals)
  | .varDecl .. | .block .. | .ifElse .. | .whileLoop .. | .ret .. | .breakLoop _ | .continueLoop _ | .funcDecl ..
  | .classDecl .. => False
  | _ => True

namespace Tree

variable {globals globals' : List String} {tree : Tree}

theorem IsTop.mono (htree : tree.IsTop globals) (hsubset : globals ⊆ globals') : tree.IsTop globals' := by
  cases tree with
  | var | assign => exact ⟨htree.1, fun hglobal => hsubset (htree.2 hglobal)⟩
  | _ => exact htree

theorem IsTop.local?_form (htree : tree.IsTop globals) : tree.form.local? = none := by
  cases tree with
  | var | assign => exact htree.1
  | varDecl => exact htree.elim
  | _ => rfl

end Tree

namespace Parser

open NanScript.Tree

namespace Frame

variable {frame : Frame} {setting : Context} {tree : Tree}

/-- A node in a function whose locals are above the floor. -/
def IsStatement (frame : Frame) (tree : Tree) : Prop := tree.IsNested frame.globals ∧ ∀ var ∈ tree.form.local?, frame.floor < var

theorem Around.isStatement (haround : frame.Around setting) (hphrase : tree.IsPhrase setting.scope) : frame.IsStatement tree := by
  cases tree with
  | var | assign => exact ⟨(haround.knows hphrase).1, fun var hvar => ((haround.knows hphrase).2 var hvar).2.1⟩
  | varDecl | funcDecl | classDecl => exact hphrase.elim
  | _ => exact ⟨trivial, nofun⟩

theorem Around.isTop (haround : frame.Around setting) (htop : frame.depth = 0) (hphrase : tree.IsPhrase setting.scope) :
    tree.IsTop frame.globals := by
  cases tree with
  | var | assign => exact ⟨Option.eq_none_iff_forall_not_mem.2 fun var hvar => ((haround.knows hphrase).2 var hvar).1 htop, (haround.knows hphrase).1⟩
  | _ => exact hphrase

def IsVariable (frame : Frame) : Tree → Prop
  | .varDecl _ name symbol _ initial => (∃ next, (frame.widen name).Means next frame.depth name symbol) ∧
    ∀ given ∈ initial, ∃ setting, (frame.widen name).Around setting ∧ given.Each (IsPhrase setting.scope)
  | _ => False

theorem IsVariable.each_isStatement (hnested : frame.depth ≠ 0) (hvariable : frame.IsVariable tree) : tree.Each frame.IsStatement := by
  cases tree with
  | varDecl note name symbol managed initial =>
    obtain ⟨⟨next, hmeans⟩, hinitial⟩ := hvariable
    rw [widen_nested hnested] at hmeans hinitial
    refine each_iff.2 ⟨⟨hmeans.isLocal hnested, fun var hvar => (hmeans.numbered var hvar).2.1⟩, fun given hgiven => ?_⟩
    obtain ⟨setting, haround, hphrase⟩ := hinitial given (Option.mem_toList.1 hgiven)
    exact hphrase.imp fun _ hnode => haround.isStatement hnode
  | _ => exact hvariable.elim

def behind (frame : Frame) : Tree → Frame
  | .varDecl _ name _ _ _ => frame.widen name
  | _ => frame

theorem behind_nested (hnested : frame.depth ≠ 0) : frame.behind tree = frame := by
  cases tree with
  | varDecl => exact widen_nested hnested
  | _ => rfl

def statement (frame : Frame) : Mode := .each (fun setting => frame.depth ≠ 0 ∧ frame.Around setting) frame.IsStatement

end Frame

variable {frame : Frame} {mode : Mode} {base held : List Tree} (depth : Nat)

theorem makes_expression : Makes frame.statement (expression depth) := by
  refine @Makes.exactly frame.statement _ .phrase (fun _ => rfl) (fun _ haround _ htree => ?_) fun _ haround => ?_
  · exact htree.imp fun _ hnode => haround.2.isStatement hnode
  · exact makes_expressionAt (fun _ var hvar => ((haround.2.knows rfl).2 var hvar).2.2) depth .assignment

theorem leads_optionalExpression (ends : TokenKind) :
    Leads frame.statement [] (optionalExpression depth ends) frame.statement Option.toList := by
  refine .pass fun found => ?_
  split
  · exact .pure (Sublist.refl _)
  · exact (makes_expression depth).some

theorem makes_expressionStatement : Makes frame.statement (expressionStatement depth) :=
  (makes_expression depth).go fun _ => .pass fun _ => .pure (Sublist.refl _)

theorem declare_apply (name : String) (problem : Option ParseProblem) (state : State) :
    declare name problem state = match state.scope.declaredHere? name with
      | some existing => (existing, problem.elim state (state.report state.previous))
      | none => (state.scope.nextSymbol, { state with scope := state.scope.declare name }) := by
  change (match state.scope.declaredHere? name with
    | some existing => _
    | none => _ : Parser Symbol) state = _
  cases state.scope.declaredHere? name with
  | none => rfl
  | some existing => cases problem <;> rfl

variable {good : Tree → Prop}

theorem turns_declare (name : String) (problem : Option ParseProblem) :
    Turns (Situation ⟨frame.Around, good⟩ base held) (declare name problem) fun symbol =>
      Situation ⟨(frame.widen name).Declared frame.depth name symbol, good⟩ base held := by
  intro state hsituation
  have haround : frame.Around state.context := hsituation.around
  rw [declare_apply]
  split
  · next existing hexisting =>
    have hdeclared : (frame.widen name).Declared frame.depth name existing state.context :=
      ⟨haround.widen name, (haround.means_declaredHere? hexisting).widen⟩
    refine Situation.congr { hsituation with around := hdeclared } ?_
    cases problem <;> rfl
  · refine ⟨hsituation.holding, fun id node hnode var hvar => ?_, haround.declare name, hsituation.good⟩
    exact Nat.lt_of_lt_of_le (hsituation.fresh id node hnode var hvar) (Scope.nextId_le_declare _ name)

theorem turns_declarePrevious : Turns (Situation ⟨frame.Around, good⟩ base held) declarePrevious fun declared =>
      Situation ⟨(frame.widen declared.1).Declared frame.depth declared.1 declared.2, good⟩ base held :=
  .pass fun _ => .pass fun name => (turns_declare name _).bind fun _ _ hdeclared => hdeclared

/-- The scope is the same before and behind an initial value. -/
theorem turns_varDeclaration (managed : Bool) :
    Turns (Situation ⟨frame.Around, good⟩ base []) (varDeclaration depth managed) fun tree =>
      Situation ⟨(frame.behind tree).Around, frame.IsVariable⟩ base [tree] := by
  refine .pass fun _ => turns_declarePrevious.bind fun (name, symbol) state hsituation => ?_
  have hdeclared : (frame.widen name).Declared frame.depth name symbol state.context := hsituation.around
  have hexpression : Makes (.phrase state.context) (expression depth) :=
    makes_expressionAt (fun _ var hvar => ((hdeclared.1.knows rfl).2 var hvar).2.2) depth .assignment
  have hrest (initial : Option Tree) : Leads (.phrase state.context) initial.toList
      (do modifyScope Scope.markInitialized; consume .semicolon "';' after variable declaration"; alloc (.varDecl · name symbol managed initial))
      ⟨(frame.widen name).Around, fun tree => frame.IsVariable tree ∧ frame.behind tree = frame.widen name⟩ fun tree => [tree] := by
    refine .known fun hgood => @Leads.change _ _ ⟨(frame.widen name).Declared frame.depth name symbol, _⟩ _ _ _ _ _ (fun state => ?_)
      (fun other hother => ?_) (fun _ _ hgood => hgood) (.pass fun _ => .makeNode (fun _ => ⟨rfl, .refl _, rfl, ?_, ⟨?_, ?_⟩, rfl⟩) ?_)
    · exact congrArg (Prod.mk state.arena) state.scope.nextId_markInitialized
    · have hsame : other.context = state.context := hother
      exact (hsame ▸ hdeclared : (frame.widen name).Declared frame.depth name symbol other.context).markInitialized
    · exact fun var hvar _ hdeclared => (hdeclared.2.numbered var hvar).2.2
    · exact ⟨_, hdeclared.2⟩
    · exact fun given hgiven => ⟨state.context, hdeclared.1, hgood given (Option.mem_toList.2 hgiven)⟩
    · exact fun _ hdeclared => hdeclared.1
  have hmade := ((leads_behind hexpression .eq).bind hrest) base state { hsituation with around := rfl, good := nofun }
  have hvariable := hmade.good _ mem_cons_self
  exact ⟨hmade.holding, hmade.fresh, hvariable.2 ▸ hmade.around, forall_mem_singleton.2 hvariable.1⟩

theorem makes_varDeclaration (managed : Bool) : Makes frame.statement (varDeclaration depth managed) := by
  intro base state hsituation
  obtain ⟨hnested, haround⟩ := hsituation.around
  have hmade := turns_varDeclaration depth managed state { hsituation with around := haround }
  simp only [Frame.behind_nested hnested] at hmade
  exact { hmade with around := ⟨hnested, hmade.around⟩, good := fun tree htree => (hmade.good tree htree).each_isStatement hnested }

theorem makes_managedDeclaration : Makes frame.statement (managedDeclaration depth) :=
  .pass fun _ => makes_varDeclaration depth true

theorem makes_returnStatement : Makes frame.statement (returnStatement depth) :=
  (leads_optionalExpression depth _).bind fun _ => .pass fun _ => .node fun _ => ⟨rfl, .refl _, rfl, nofun, trivial, nofun⟩

theorem makes_loopJump {make : Note → Tree} (hmake : ∀ note, Fits (fun _ => True) frame.IsStatement [] [] note (make note)) :
    Makes frame.statement (loopJump make) := by
  have hjump : Makes frame.statement (alloc make) :=
    .node fun note => { hmake note with numbered := fun var hvar setting _ => (hmake note).numbered var hvar setting trivial }
  refine .pass fun _ => .get fun state _ => ?_
  dsimp only
  split
  · exact .pass fun _ => .pass fun _ => hjump
  · exact .pass fun _ => hjump

theorem leads_forInitial : Leads frame.statement [] (forInitial depth) frame.statement Option.toList := by
  refine .pass fun empty => ?_
  split
  · exact .pure (Sublist.refl _)
  · refine .pass fun var => ?_
    split
    · exact (makes_varDeclaration depth false).some
    · exact (makes_expressionStatement depth).some

theorem makes_forCondition : Makes frame.statement (forCondition depth) := by
  refine (leads_optionalExpression depth _).bind fun condition => ?_
  cases condition with
  | some => exact .pure (Sublist.refl _)
  | none => exact .node fun _ => ⟨rfl, .refl _, rfl, nofun, trivial, nofun⟩

section

variable {nested : Parser Tree} (hnested : ∀ frame : Frame, Makes frame.statement nested)

include hnested

theorem leads_blockMember : Leads frame.statement [] (blockMember nested depth) frame.statement Option.toList := by
  refine .get fun state _ => ?_
  split
  · exact .pass fun _ => (makes_varDeclaration depth false).some
  · exact .pass fun _ => (makes_managedDeclaration depth).some
  · exact .pass fun _ => .pass fun _ => .pure (Sublist.refl _)
  · exact .pass fun _ => .pass fun _ => .pure (Sublist.refl _)
  · exact (hnested frame).some

theorem makes_block : Makes frame.statement (block nested depth) := by
  refine .given fun _ haround => @Leads.change _ _ frame.inner.statement _ _ _ _ _ (fun _ => rfl) (fun _ h => ⟨Nat.succ_ne_zero _, h.2.enter⟩)
    (fun _ _ hgood => hgood) ?_
  refine (leads_body (leads_blockMember depth hnested) _ depth).bind fun _ => .pass fun _ => ?_
  refine @Leads.change _ _ frame.statement _ _ _ _ _ (fun _ => rfl) (fun _ h => ⟨haround.1, h.2.leave⟩) (fun _ _ hgood => hgood) ?_
  exact .chain (fun _ => ⟨rfl, .refl _, rfl, nofun, trivial, nofun⟩) (Sublist.refl _)

theorem makes_ifStatement : Makes frame.statement (ifStatement nested depth) :=
  .pass fun _ => (makes_expression depth).go fun _ => .pass fun _ => (hnested frame).go fun _ =>
    ((leads_behind (hnested frame) .kwElse).behind _).bind fun _ => .node fun _ => ⟨rfl, .refl _, rfl, nofun, trivial, nofun⟩

theorem makes_loopBody : Makes frame.statement (loopBody nested) := by
  let inner : Frame := { frame with loopDepth := frame.loopDepth + 1 }
  refine @Leads.change _ _ inner.statement _ _ _ _ _ (fun _ => rfl)
    (fun _ h => ⟨h.1, { h.2 with loopDepth := congrArg (· + 1) h.2.loopDepth }⟩) (fun _ _ hgood => hgood) ?_
  refine (hnested inner).go fun _ => @Leads.change _ _ frame.statement _ _ _ _ _ (fun _ => rfl)
    (fun _ h => ⟨h.1, { h.2 with loopDepth := congrArg (· - 1) h.2.loopDepth }⟩) (fun _ _ hgood => hgood) ?_
  exact .pure (Sublist.refl _)

theorem makes_whileStatement : Makes frame.statement (whileStatement nested depth) :=
  .pass fun _ => (makes_expression depth).go fun _ => .pass fun _ => (makes_loopBody hnested).go fun _ =>
    .node fun _ => ⟨rfl, .refl _, rfl, nofun, trivial, nofun⟩

theorem makes_forStatement : Makes frame.statement (forStatement nested depth) := by
  have hloop (initial step : Option Tree) (condition tree : Tree) :
      Leads frame.statement (initial.toList ++ ([condition] ++ step.toList ++ [tree])) (alloc (.whileLoop · condition tree step))
        frame.statement fun loop => initial.toList ++ [loop] := by
    refine Leads.front (.node fun _ => ⟨rfl, Perm.subperm ?_, rfl, nofun, trivial, nofun⟩) (fun _ hgood => hgood) _
    exact (perm_append_singleton _ _).symm.cons _
  refine .given fun _ haround => @Leads.change _ _ frame.inner.statement _ _ _ _ _ (fun _ => rfl) (fun _ h => ⟨Nat.succ_ne_zero _, h.2.enter⟩)
    (fun _ _ hgood => hgood) ?_
  refine .pass fun _ => (leads_forInitial depth).bind fun initial => (makes_forCondition depth).go fun condition => ?_
  refine .pass fun _ => ((leads_optionalExpression depth _).behind _).bind fun step => .pass fun _ => ?_
  refine (makes_loopBody hnested).go fun tree => ?_
  refine @Leads.change _ _ frame.statement _ _ _ _ _ (fun _ => rfl) (fun _ h => ⟨haround.1, h.2.leave⟩) (fun _ _ hgood => hgood) ?_
  simp only [append_assoc] at hloop ⊢
  refine (hloop initial step condition tree).bind fun loop => ?_
  exact .chain (fun _ => ⟨rfl, .refl _, rfl, nofun, trivial, nofun⟩) (Sublist.refl _)

theorem makes_keywordStatement {depth : Nat} {kind : TokenKind} {reader : Parser Tree}
    (hreader : keywordStatement? nested depth kind = some reader) : Makes frame.statement reader := by
  unfold keywordStatement? at hreader
  split at hreader <;> first
    | contradiction
    | obtain rfl := Option.some.inj hreader
  · exact makes_ifStatement depth hnested
  · exact makes_whileStatement depth hnested
  · exact makes_forStatement depth hnested
  · exact makes_returnStatement depth
  · exact makes_loopJump fun _ => ⟨rfl, .refl _, rfl, nofun, trivial, nofun⟩
  · exact makes_loopJump fun _ => ⟨rfl, .refl _, rfl, nofun, trivial, nofun⟩
  · exact makes_block depth hnested

end

theorem makes_statement (depth : Nat) (frame : Frame) : Makes frame.statement (statement depth) := by
  induction depth generalizing frame with
  | zero => exact .node fun _ => ⟨rfl, .refl _, rfl, nofun, trivial, nofun⟩
  | succ depth ih =>
    refine .get fun state _ => ?_
    split
    · next reader hreader => exact .pass fun _ => makes_keywordStatement ih hreader
    · exact makes_expressionStatement depth

end Parser

/-! ### Functions -/

namespace Tree

def IsParameter : Tree → Prop
  | var _ _ symbol => ∃ id, symbol = .localVar id
  | _ => False

def locals (tree : Tree) : List Nat := tree.nodes.filterMap (·.form.local?)

end Tree

/-- Each function has local variables of its own, numbered above those of the functions in front. -/
def Ascending (functions : List Tree) : Prop :=
  functions.Pairwise fun first second => ∀ var ∈ first.locals, ∀ other ∈ second.locals, var < other

theorem Ascending.append {functions others : List Tree} {floor : Nat} (hfunctions : Ascending functions) (hothers : Ascending others)
    (hbelow : ∀ function ∈ functions, ∀ var ∈ function.locals, var ≤ floor)
    (habove : ∀ function ∈ others, ∀ var ∈ function.locals, floor < var) : Ascending (functions ++ others) :=
  pairwise_append.2 ⟨hfunctions, hothers, fun first hfirst second hsecond var hvar other hother =>
    Nat.lt_of_le_of_lt (hbelow first hfirst var hvar) (habove second hsecond other hother)⟩

theorem locals_of_mem_functionDeclarations {program : List Tree} {function : Tree} (hfunction : function ∈ functionDeclarations program) :
    ∃ tree ∈ program, function.locals ⊆ tree.locals := by
  obtain ⟨tree, htree, hmem⟩ := mem_flatMap.1 hfunction
  have hnode : function ∈ tree.nodes := by
    split at hmem
    · exact Tree.mem_nodes_of_child hmem function.mem_nodes_self
    · exact mem_singleton.1 hmem ▸ tree.mem_nodes_self
  refine ⟨tree, htree, fun var hvar => ?_⟩
  obtain ⟨node, hbelow, hvar⟩ := mem_filterMap.1 hvar
  exact mem_filterMap.2 ⟨node, Tree.nodes_subset hnode hbelow, hvar⟩

namespace Parser

open NanScript.Tree

/-- A text as it stands in a tree. -/
def interned (text : String) : String := if Interner.maxLength < text.utf8ByteSize then "" else text

/-- The name of the code of a function. -/
def codeNameOf (className : Option String) (sourceName : String) : String :=
  match className with
  | some className => interned s!"{className}_{sourceName}"
  | none => if sourceName = "main" then mainSymbol else sourceName

namespace Frame

variable {frame : Frame} {tree : Tree}

def IsParameter (frame : Frame) (tree : Tree) : Prop := tree.IsParameter ∧ ∀ var ∈ tree.form.local?, frame.floor < var

/-- Parameters of a function. -/
def parameter (frame : Frame) : Mode := .each (fun setting => frame.depth ≠ 0 ∧ frame.Around setting) frame.IsParameter

/-- A function with the name it has in its class. -/
def IsCode (frame : Frame) : Tree → Prop
  | .funcDecl _ name sourceName parameters body => name = codeNameOf frame.className sourceName ∧
    (∀ parameter ∈ parameters, parameter.Each frame.IsParameter) ∧ body.Each frame.IsStatement
  | _ => False

theorem IsCode.above (hcode : frame.IsCode tree) : ∀ var ∈ tree.locals, frame.floor < var := by
  intro var hmem
  obtain ⟨node, hnode, hvar⟩ := mem_filterMap.1 hmem
  cases tree with
  | funcDecl =>
    rw [nodes_eq] at hnode
    rcases mem_cons.1 hnode with rfl | hbelow
    · cases hvar
    · obtain ⟨child, hchild, hnode⟩ := mem_flatMap.1 hbelow
      rcases mem_cons.1 hchild with rfl | hparameter
      · exact (hcode.2.2 node ‹_›).2 var hvar
      · exact (hcode.2.1 child hparameter node hnode).2 var hvar
  | _ => exact hcode.elim

end Frame

variable {frame : Frame} {base held : List Tree}

theorem leads_parameter (hnested : frame.depth ≠ 0) (name : String) (symbol : Symbol) :
    Leads ⟨(frame.widen name).Declared frame.depth name symbol, frame.parameter.good⟩ held (parameter name symbol) frame.parameter
      fun tree => held ++ [tree] := by
  rw [Frame.widen_nested hnested]
  refine @Leads.change _ _ ⟨frame.Declared frame.depth name symbol, frame.parameter.good⟩ _ _ _ _ _ (fun state => ?_)
    (fun _ hdeclared => hdeclared.markInitialized) (fun _ _ hgood => hgood) ?_
  · exact congrArg (Prod.mk state.arena) state.scope.nextId_markInitialized
  · refine .given fun _ hdeclared => ?_
    have hparameter (note : Note) : Fits (frame.Declared frame.depth name symbol) frame.parameter.good [] [] note (.var note name symbol) := by
      refine ⟨rfl, .refl _, rfl, fun var hvar _ hdeclared => (hdeclared.2.numbered var hvar).2.2, each_iff.2 ⟨⟨?_, ?_⟩, nofun⟩⟩
      · exact hdeclared.2.isLocal hnested
      · exact fun var hvar => (hdeclared.2.numbered var hvar).2.1
    have hmakes : Leads ⟨frame.Declared frame.depth name symbol, frame.parameter.good⟩ [] (alloc (.var · name symbol)) frame.parameter
        fun tree => [tree] := .makeNode hparameter fun _ hdeclared => ⟨hnested, hdeclared.1⟩
    simpa using hmakes.front (fun _ hgood => hgood) held

theorem makes_namedParameter : Makes frame.parameter namedParameter := by
  refine .pass fun _ => .given fun _ haround base state hsituation => ?_
  have hdeclared := @turns_declarePrevious frame base [] frame.parameter.good state { hsituation with around := hsituation.around.2 }
  exact leads_parameter haround.1 _ _ base _ hdeclared

theorem leads_receiver : Leads frame.parameter [] receiver frame.parameter fun trees => trees := by
  refine .get fun state haround => ?_
  split
  · exact .pure (Sublist.refl _)
  · refine .pass fun name base state hsituation => ?_
    have hdeclared := @turns_declare frame base [] frame.parameter.good name none state { hsituation with around := hsituation.around.2 }
    exact leads_parameter haround.1 _ _ base _ hdeclared

theorem leads_parameters (steps : Nat) : Leads frame.parameter [] (parameters steps) frame.parameter fun trees => trees := by
  have hbehind (all : List Tree) : Leads frame.parameter all (do consume .rparen "')' after parameters"; return all) frame.parameter
      fun trees => trees := .pass fun _ => .pure (Sublist.refl _)
  refine leads_receiver.bind fun first => .pass fun _ => .pass fun empty => ?_
  dsimp only
  split
  · exact .bind (.pure (Sublist.refl first)) hbehind
  · exact (leads_sepBy (fun _ => makes_namedParameter) steps first).bind hbehind

variable {good : Tree → Prop} (depth : Nat)

/-- A function leaves the scope of its parameters and goes back to the loops around it. -/
theorem turns_parametersAndBody :
    Turns (Situation ⟨frame.Around, good⟩ base []) (parametersAndBody depth) fun function state =>
      Situation ⟨frame.Around, fun _ => True⟩ base (function.1 ++ [function.2]) state ∧
        (∀ parameter ∈ function.1, parameter.Each frame.IsParameter) ∧ function.2.Each frame.IsStatement := by
  let inner : Frame := { frame.inner with loopDepth := 0 }
  refine .here fun before hbefore => ?_
  have hloop : before.loopDepth = frame.loopDepth := hbefore.around.loopDepth
  refine .change (Situation ⟨Frame.Around { frame with loopDepth := 0 }, good⟩ base []) ?_
    (.change (Situation inner.parameter base []) (fun state hsituation => ?_) ((leads_parameters depth base).bind fun parameters => ?_))
  · rintro _ rfl
    exact { hbefore with around := { hbefore.around with loopDepth := rfl } }
  · exact { hsituation with around := ⟨Nat.succ_ne_zero _, hsituation.around.enter⟩, good := nofun }
  refine .imp (Situation inner.statement (base ++ parameters) []) (fun state hsituation =>
    ⟨hsituation.behind hsituation.around, hsituation.good⟩) fun hparameters => ?_
  refine .pass fun _ => (makes_block depth (makes_statement depth) _).bind fun tree state hblock => ⟨?_, hparameters, ?_⟩
  · have hleave : Frame.Around { frame with loopDepth := 0 } ⟨_, _, _⟩ := hblock.around.2.leave
    exact ⟨append_assoc .. ▸ hblock.holding, hblock.fresh, { hleave with loopDepth := hloop }, fun _ _ => trivial⟩
  · exact hblock.good tree mem_cons_self

theorem intern_apply (text : String) (state : State) :
    (intern text state).1 = interned text ∧ (intern text state).2.previous = state.previous := by
  unfold intern interned
  split
  · refine ⟨rfl, ?_⟩
    change (state.errorAt _ _).previous = _
    unfold State.errorAt
    split <;> rfl
  · exact ⟨rfl, rfl⟩

theorem interned_eq_main {text : String} : interned text = "main" ↔ text = "main" := by
  unfold interned
  split
  · next hlong =>
    refine iff_of_false (by decide) fun hmain => ?_
    rw [hmain] at hlong
    exact absurd hlong (by decide)
  · exact Iff.rfl

/-- The code of a function that stands in no class has the name in the source, unless that is `main`. -/
theorem turns_codeName (state : State) : Turns (· = state) (codeName (interned state.previous.lexeme)) fun name after =>
    name = codeNameOf state.className (interned state.previous.lexeme) ∧ after.core = state.core := by
  unfold codeName codeNameOf
  refine .here fun found hfound => ?_
  subst found
  cases state.className with
  | some className =>
    rintro _ rfl
    exact ⟨(intern_apply _ _).1, Quiet.same _⟩
  | none =>
    refine @Turns.bind _ _ _ _ _ _ (fun token after => after = state ∧ token = state.previous) ?_ fun token => .assume fun htoken => ?_
    · rintro _ rfl
      exact ⟨rfl, rfl⟩
    · subst htoken
      dsimp only
      split
      · next hmain =>
        rintro _ rfl
        rw [if_pos (interned_eq_main.2 (beq_iff_eq.1 hmain))]
        exact ⟨(intern_apply _ _).1, Quiet.same _⟩
      · next hmain =>
        rintro _ rfl
        rw [if_neg (mt interned_eq_main.1 (mt beq_iff_eq.2 hmain))]
        exact ⟨rfl, rfl⟩

theorem turns_named {β : Type} {next : String → String → Parser β} {after : β → State → Prop}
    (hnext : ∀ sourceName, Turns (Situation ⟨frame.Around, good⟩ base held) (next sourceName (codeNameOf frame.className sourceName)) after)
    : Turns (Situation ⟨frame.Around, good⟩ base held)
      (do let sourceName ← intern (← previous).lexeme; let name ← codeName sourceName; next sourceName name) after := by
  intro state hsituation
  obtain ⟨hsource, hprevious⟩ := intern_apply state.previous.lexeme state
  have hread := hsituation.congr (@Quiet.same _ (intern state.previous.lexeme) _ state)
  have hclass : (intern state.previous.lexeme state).2.className = frame.className := hread.around.className
  obtain ⟨hname, hcore⟩ := turns_codeName _ (intern state.previous.lexeme state).2 rfl
  rw [hprevious, ← hsource, hclass] at hname
  rw [hprevious, ← hsource] at hcore
  have hafter := hnext (intern state.previous.lexeme state).1 _ (hread.congr hcore)
  rw [← hname] at hafter
  exact hafter

theorem makes_function : Makes ⟨frame.Around, frame.IsCode⟩ (function depth) := by
  refine .pass fun _ base => turns_named fun sourceName => (turns_parametersAndBody depth).bind fun (parameters, tree) state hmade => ?_
  refine hmade.1.make (fun _ => rfl) (fun _ => ?_) (fun _ => rfl) (sublist_append_left _ _) (fun _ => nofun) hmade.1.around fun _ => ?_
  · exact (perm_append_singleton _ _).symm.subperm
  · exact ⟨rfl, hmade.2⟩

/-! ### Declarations -/

theorem leads_method : Leads ⟨frame.Around, frame.IsCode⟩ [] (method depth) ⟨frame.Around, frame.IsCode⟩ Option.toList := by
  refine .pass fun found => ?_
  split
  · exact (makes_function depth).some
  · exact .pass fun _ => .pass fun _ => .pure (Sublist.refl _)

namespace Frame

variable {frame : Frame} {tree : Tree} {globals : List String} {floor : Nat}

theorem IsStatement.mono (htree : frame.IsStatement tree) (hglobals : frame.globals ⊆ globals) (hfloor : floor ≤ frame.floor) :
    IsStatement { frame with globals, floor } tree := by
  refine ⟨?_, fun var hvar => Nat.lt_of_le_of_lt hfloor (htree.2 var hvar)⟩
  cases tree with
  | var | assign => exact fun hglobal => hglobals (htree.1 hglobal)
  | _ => exact htree.1

theorem IsCode.mono (htree : frame.IsCode tree) (hglobals : frame.globals ⊆ globals) (hfloor : floor ≤ frame.floor) :
    IsCode { frame with globals, floor } tree := by
  cases tree with
  | funcDecl =>
    refine ⟨htree.1, fun parameter hparameter => (htree.2.1 parameter hparameter).imp fun _ hnode => ?_,
      htree.2.2.imp fun _ hnode => hnode.mono hglobals hfloor⟩
    exact ⟨hnode.1, fun var hvar => Nat.lt_of_le_of_lt hfloor (hnode.2 var hvar)⟩
  | _ => exact htree

/-- A declaration at the top level. -/
def IsDeclared (frame : Frame) : Tree → Prop
  | .varDecl _ name symbol _ initial => symbol = .global ∧ ∀ given ∈ initial, given.Each (IsTop (name :: frame.globals))
  | .classDecl _ name methods => (∀ method ∈ methods, IsCode { frame with className := some name } method) ∧ Ascending methods
  | tree => frame.IsCode tree

theorem IsVariable.isDeclared (hvariable : frame.IsVariable tree) (htop : frame.depth = 0) : frame.IsDeclared tree := by
  cases tree with
  | varDecl note name symbol managed initial =>
    obtain ⟨⟨next, hmeans⟩, hinitial⟩ := hvariable
    refine ⟨hmeans.eq_global htop, fun given hgiven => ?_⟩
    obtain ⟨setting, haround, hphrase⟩ := hinitial given hgiven
    rw [widen, if_pos htop] at haround
    exact hphrase.imp fun _ hnode => haround.isTop htop hnode
  | _ => exact hvariable.elim

end Frame

variable {state : State}

section

variable (htop : frame.depth = 0)

include htop

/-- At the top level what comes next is numbered above all that is there. -/
theorem Situation.above (hsituation : Situation ⟨frame.Around, good⟩ base held state) {mode : Mode}
    (hmode : mode.around = Frame.Around { frame with floor := state.scope.nextId - 1 }) :
    Situation mode (base ++ held) [] state ∧
      ∀ tree ∈ base ++ held, ∀ var ∈ tree.locals, var ≤ state.scope.nextId - 1 := by
  have haround : frame.Around state.context := hsituation.around
  have hnext : 0 < state.scope.nextId := Nat.zero_lt_of_lt haround.floor
  refine ⟨hsituation.behind (hmode ▸ haround.raise htop (Nat.sub_one_lt_of_lt hnext)), fun tree htree var hvar => ?_⟩
  obtain ⟨node, hnode, hvar⟩ := mem_filterMap.1 hvar
  exact Nat.le_sub_one_of_lt (hsituation.bound htree hnode var hvar)

theorem turns_methods (steps : Nat) :
    Turns (Situation ⟨frame.Around, frame.IsCode⟩ base []) (body .methods endsBody (method depth) steps) fun methods state =>
      Situation ⟨frame.Around, frame.IsCode⟩ base methods state ∧ Ascending methods := by
  refine fun state hsituation => @turns_body (fun members state => Situation ⟨frame.Around, frame.IsCode⟩ base members state ∧
    Ascending members) .methods (method depth) endsBody ?_ steps state ⟨hsituation, .nil⟩
  intro members state ⟨hsituation, hascending⟩ _
  let frame' : Frame := { frame with floor := state.scope.nextId - 1 }
  obtain ⟨habove, hbelow⟩ := @Situation.above frame _ _ _ _ htop hsituation ⟨frame'.Around, frame'.IsCode⟩ rfl
  have hfloor : frame.floor ≤ frame'.floor := Nat.le_sub_one_of_lt hsituation.around.floor
  have hmade := leads_method depth _ _ habove
  have hcode : ∀ tree ∈ ((method depth : Parser _) state).1.toList, frame.IsCode tree := fun tree htree =>
    (hmade.good tree htree).mono (Subset.refl _) hfloor
  refine ⟨(hmade.take (hmade.around.mono (Subset.refl _) hfloor) (forall_mem_append.2 ⟨hsituation.good, hcode⟩)).congr
    (@Quiet.same _ recover _ _), hascending.append ?_ (fun tree htree => hbelow tree (mem_append_right _ htree))
    fun tree htree => (hmade.good tree htree).above⟩
  cases ((method depth : Parser _) state).1 <;> simp [Ascending]

theorem makes_classDeclaration :
    Makes ⟨frame.Around, fun tree => frame.IsDeclared tree ∧ frame.behind tree = frame⟩ (classDeclaration depth) := by
  refine .pass fun _ => .pass fun _ => .pass fun name => .pass fun _ => .get fun before hbefore => ?_
  let inner : Frame := { frame with className := some name }
  have hclass : before.className = frame.className := hbefore.className
  refine @Leads.change _ _ ⟨inner.Around, inner.IsCode⟩ _ _ _ _ _ (fun _ => rfl) (fun _ haround => { haround with className := rfl }) nofun ?_
  refine fun base => (@turns_methods inner base depth htop depth).bind fun methods => .assume fun hascending => ?_
  refine (?_ : Leads ⟨inner.Around, inner.IsCode⟩ methods _ ⟨frame.Around, _⟩ fun tree => [tree]) base
  refine @Leads.change _ _ ⟨frame.Around, inner.IsCode⟩ _ _ _ _ _ (fun _ => rfl) (fun _ haround => { haround with className := hclass })
    (fun _ _ hgood => hgood) (.pass fun _ => .known fun hgood => ?_)
  exact .makeChain (fun _ => ⟨rfl, .refl _, rfl, nofun, ⟨hgood, hascending⟩, rfl⟩) (Sublist.refl _) fun _ haround => haround

theorem turns_declaration : Turns (Situation ⟨frame.Around, frame.IsDeclared⟩ base [])
    (declaration depth) fun tree => Situation ⟨(tree.elim frame frame.behind).Around, frame.IsDeclared⟩ base tree.toList := by
  have hsteady {reader : Parser Tree} {good : Tree → Prop} (hgood : ∀ tree, good tree → frame.IsDeclared tree ∧ frame.behind tree = frame)
      (hreader : Makes ⟨frame.Around, good⟩ reader) : Turns (Situation ⟨frame.Around, frame.IsDeclared⟩ base []) reader
      fun tree => Situation ⟨(frame.behind tree).Around, frame.IsDeclared⟩ base [tree] := by
    have hmakes : Turns (Situation ⟨frame.Around, frame.IsDeclared⟩ base []) reader fun tree => Situation ⟨frame.Around, good⟩ base [tree] :=
      fun state hsituation => hreader base state { hsituation with good := nofun }
    refine hmakes.weaken fun tree state hmade => ?_
    obtain ⟨hdeclared, hbehind⟩ := hgood tree (hmade.good _ mem_cons_self)
    refine { hmade with around := ?_, good := forall_mem_singleton.2 hdeclared }
    rw [hbehind]
    exact hmade.around
  have hvar (managed : Bool) : Turns (Situation ⟨frame.Around, frame.IsDeclared⟩ base []) (varDeclaration depth managed)
      fun tree => Situation ⟨(frame.behind tree).Around, frame.IsDeclared⟩ base [tree] := by
    refine (turns_varDeclaration depth managed).weaken fun tree state hmade => { hmade with good := ?_ }
    exact forall_mem_singleton.2 ((hmade.good tree mem_cons_self).isDeclared htop)
  refine .get fun state => ?_
  split
  · refine .pass fun _ => .map (hsteady (fun tree hcode => ?_) (makes_function depth))
    cases tree with
    | funcDecl => exact ⟨hcode, rfl⟩
    | _ => exact hcode.elim
  · exact .pass fun _ => .map (hsteady (fun _ hdeclared => hdeclared) (makes_classDeclaration depth htop))
  · exact .pass fun _ => .map (hvar false)
  · exact .pass fun _ => .map (.pass fun _ => hvar true)
  · rw [parser_liftM, refuse]
    exact .pass fun _ => .pass fun _ _ hsituation => hsituation

end

/-! ### Programs -/

namespace Frame

variable {frame : Frame} {tree : Tree} {globals : List String} {floor : Nat}

theorem IsDeclared.mono (htree : frame.IsDeclared tree) (hglobals : frame.globals ⊆ globals) (hfloor : floor ≤ frame.floor) :
    IsDeclared { frame with globals, floor } tree := by
  cases tree with
  | varDecl => exact ⟨htree.1, fun given hgiven => (htree.2 given hgiven).imp fun _ hnode => hnode.mono (cons_subset_cons _ hglobals)⟩
  | classDecl => exact ⟨fun method hmethod => (htree.1 method hmethod).mono hglobals hfloor, htree.2⟩
  | funcDecl note name sourceName parameters body =>
    exact @IsCode.mono frame (.funcDecl note name sourceName parameters body) _ _ htree hglobals hfloor
  | _ => exact htree

/-- The functions of a declaration have numbers of their own above the floor; the value of a top-level variable has none. -/
theorem IsDeclared.ascending (htree : frame.IsDeclared tree) : Ascending (functionDeclarations [tree]) ∧
    ∀ function ∈ functionDeclarations [tree], ∀ var ∈ function.locals, frame.floor < var := by
  have hsingle (habove : ∀ var ∈ tree.locals, frame.floor < var) : Ascending [tree] ∧
      ∀ function ∈ [tree], ∀ var ∈ function.locals, frame.floor < var :=
    ⟨pairwise_singleton _ _, forall_mem_singleton.2 habove⟩
  cases tree with
  | classDecl _ name methods =>
    rw [functionDeclarations, flatMap_singleton]
    exact ⟨htree.2, fun method hmethod => (htree.1 method hmethod).above⟩
  | varDecl note name symbol managed initial =>
    refine hsingle fun var hmem => ?_
    obtain ⟨node, hnode, hvar⟩ := mem_filterMap.1 hmem
    obtain ⟨rfl, hinitial⟩ := htree
    rw [nodes_eq] at hnode
    rcases mem_cons.1 hnode with rfl | hbelow
    · cases hvar
    · obtain ⟨given, hgiven, hnode⟩ := mem_flatMap.1 hbelow
      rw [(hinitial given (Option.mem_toList.1 hgiven) node hnode).local?_form] at hvar
      cases hvar
  | funcDecl => exact hsingle (IsCode.above htree)
  | _ => exact htree.elim

/-- Between declarations, outside of classes and loops. -/
def top (globals : List String) : Frame := ⟨0, globals, 0, none, 0⟩

end Frame

/-- The declarations so far are made, each with numbers of its own, and their variables are known. -/
def Between (members : List Tree) (state : State) : Prop :=
  Situation ⟨(Frame.top (globalDeclarations members)).Around, (Frame.top (globalDeclarations members)).IsDeclared⟩ [] members state ∧
    Ascending (functionDeclarations members)

theorem Between.initial (tokens : List Token) : Between [] (.initial tokens) := by
  refine ⟨⟨Arena.Holding.empty, ?_, ⟨rfl, Nat.one_pos, .nil, nofun, nofun, rfl, rfl⟩, nofun⟩, .nil⟩
  simp [State.initial, Arena.empty, Arena.get?]

theorem Between.next {members : List Tree} (hbetween : Between members state) (depth : Nat) :
    Between (members ++ ((declaration depth : Parser _) state).1.toList)
      ((recover : Parser Unit) ((declaration depth : Parser _) state).2).2 := by
  obtain ⟨hsituation, hascending⟩ := hbetween
  let frame : Frame := { Frame.top (globalDeclarations members) with floor := state.scope.nextId - 1 }
  obtain ⟨habove, hbelow⟩ := @Situation.above (Frame.top (globalDeclarations members)) _ _ _ _ rfl hsituation ⟨frame.Around, frame.IsDeclared⟩ rfl
  have hmade := @turns_declaration frame _ depth rfl state habove
  generalize (declaration depth : Parser _) state = result at hmade ⊢
  obtain ⟨tree, after⟩ := result
  suffices hsuffices : Between (members ++ tree.toList) after from
    ⟨hsuffices.1.congr (@Quiet.same _ recover _ after), hsuffices.2⟩
  cases tree with
  | none =>
    rw [Option.toList_none, append_nil]
    exact ⟨{ hmade with
      holding := by simpa using hmade.holding
      around := hmade.around.mono (Subset.refl _) (Nat.zero_le _)
      good := hsituation.good }, hascending⟩
  | some tree =>
    have hglobals : globalDeclarations members ⊆ globalDeclarations (members ++ [tree]) :=
      ((sublist_append_left members [tree]).filterMap _).subset
    have hbehind : frame.behind tree = { frame with globals := (frame.behind tree).globals } := by cases tree <;> rfl
    have hwiden : (frame.behind tree).globals ⊆ globalDeclarations (members ++ [tree]) := by
      cases tree with
      | varDecl => exact cons_subset.2 ⟨by simp [globalDeclarations], hglobals⟩
      | _ => exact hglobals
    have hdeclared : frame.IsDeclared tree := hmade.good tree mem_cons_self
    have haround : (frame.behind tree).Around after.context := hmade.around
    rw [hbehind] at haround
    refine ⟨hmade.take (haround.mono hwiden (Nat.zero_le _)) (forall_mem_append.2 ⟨fun other hother => ?_, ?_⟩), ?_⟩
    · exact (hsituation.good other hother).mono hglobals (Nat.zero_le _)
    · exact forall_mem_singleton.2 (hdeclared.mono hglobals (Nat.zero_le _))
    · rw [functionDeclarations, flatMap_append]
      refine hascending.append hdeclared.ascending.1 (fun function hfunction var hvar => ?_) hdeclared.ascending.2
      obtain ⟨other, hother, hlocals⟩ := locals_of_mem_functionDeclarations hfunction
      exact hbelow other hother var (hlocals hvar)

/-- The parser is about to read a declaration behind others, or done. -/
inductive Reading (source : String) : List Tree → State → Prop
  | start : Reading source [] (State.initial (tokens source)).advance
  | next {members : List Tree} {state : State} (hreading : Reading source members state) (hmore : state.current.kind ≠ .eof) :
    Reading source (members ++ ((declaration (depthBound (tokens source)) : Parser _) state).1.toList)
      ((recover : Parser Unit) ((declaration (depthBound (tokens source)) : Parser _) state).2).2

theorem Reading.between {source : String} {members : List Tree} (hreading : Reading source members state) :
    Between members state := by
  induction hreading with
  | start => exact ⟨(Between.initial _).1.congr (State.core_advance _), .nil⟩
  | next _ _ ih => exact ih.next _

end Parser

/-- Reading a text ends behind its declarations, which are then chained. -/
theorem reading_parse (source : String) : ∃ state, Parser.Reading source (parse source).program state ∧
    (parse source).arena = state.arena.chain ((parse source).program.map Tree.id) := by
  have hbody := @Parser.turns_body (Parser.Reading source) .declarations (Parser.declaration (Parser.depthBound (tokens source))) (· == .eof)
    (fun members state hreading hmore => hreading.next (by simpa using hmore)) (Parser.depthBound (tokens source))
  exact ⟨_, hbody _ .start, rfl⟩

namespace Tree

def IsFunction (globals : List String) : Tree → Prop
  | funcDecl _ _ _ parameters body => (∀ parameter ∈ parameters, parameter.IsParameter) ∧ body.Each (IsNested globals)
  | _ => False

/-- A declaration at the top level, with top-level variables among the given ones. -/
def IsDeclaration (globals : List String) : Tree → Prop
  | varDecl _ _ _ _ initial => ∀ given ∈ initial, given.Each (IsTop globals)
  | classDecl _ _ methods => ∀ method ∈ methods, method.IsFunction globals
  | tree => tree.IsFunction globals

end Tree

/-- Whatever was wrong with a text, its tree is made of declarations, and all names are in their places. -/
theorem isDeclaration_of_parse (source : String) :
    ∀ tree ∈ (parse source).program, tree.IsDeclaration (globalDeclarations (parse source).program) := by
  obtain ⟨state, hreading, -⟩ := reading_parse source
  intro tree htree
  have hdeclared := hreading.between.1.good tree htree
  have hfunction {className : Option String} {function : Tree}
      (hcode : Parser.Frame.IsCode ⟨0, globalDeclarations (parse source).program, 0, className, 0⟩ function) :
      function.IsFunction (globalDeclarations (parse source).program) := by
    cases function with
    | funcDecl =>
      exact ⟨fun parameter hparameter => (hcode.2.1 parameter hparameter parameter parameter.mem_nodes_self).1,
        hcode.2.2.imp fun _ hnode => hnode.1⟩
    | _ => exact hcode
  cases tree with
  | varDecl note name symbol managed initial =>
    refine fun given hgiven => (hdeclared.2 given hgiven).imp fun _ hnode => hnode.mono ?_
    exact cons_subset.2 ⟨mem_filterMap.2 ⟨_, htree, rfl⟩, Subset.refl _⟩
  | classDecl => exact fun method hmethod => hfunction (hdeclared.1 method hmethod)
  | funcDecl note name sourceName parameters body => exact @hfunction none (.funcDecl note name sourceName parameters body) hdeclared
  | _ => exact hdeclared

/-- Whatever was wrong with a text, the arena holds its declarations. -/
theorem stored_parse (source : String) : ∀ tree ∈ (parse source).program, tree.Each (parse source).arena.Holds := by
  obtain ⟨state, hreading, harena⟩ := reading_parse source
  rw [harena]
  exact hreading.between.1.holding.stored_chain (Sublist.refl _)

end NanScript
