import NanScript.Parser.Declaration

/-!
# What readers keep

A relation of states that is reflexive and transitive, and that holds across every single step a reader can take, holds across
every reader. There are two kinds of steps: those to other tokens, with their reports, and changes of anything else. A reader
that makes no other steps than those of the first kind needs a relation that holds across these.
-/

namespace NanScript.Parser

set_option synthInstance.maxSize 1000

variable {α β : Type}

/-- Where the parser is in scopes, classes and loops. -/
structure Context where
  scope : Scope
  className : Option String
  loopDepth : Nat

def State.context (state : State) : Context := ⟨state.scope, state.className, state.loopDepth⟩

/-- The relation holds across all steps to other tokens, and across reports. -/
class Moving (rel : State → State → Prop) : Prop where
  refl (state : State) : rel state state
  trans {first second third : State} : rel first second → rel second third → rel first third
  advance (state : State) : rel state state.advance
  errorAt (state : State) (token : Token) (problem : ParseProblem) : rel state (state.errorAt token problem)
  report (state : State) (token : Token) (problem : ParseProblem) : rel state (state.report token problem)
  calm (state : State) : rel state { state with panicking := false }

/-- The relation also holds across changes that leave the tokens and the reports alone. -/
class Stepping (rel : State → State → Prop) : Prop extends Moving rel where
  change (state : State) (arena : Arena Form) (scope : Scope) (className : Option String) (loopDepth : Nat) :
    rel state { state with arena, scope, className, loopDepth }

/-- The relation holds between the states before and after a reader. -/
class Keeps (rel : State → State → Prop) (reader : Parser α) : Prop where
  keeps (state : State) : rel state (reader state).2

variable {rel : State → State → Prop}

/-! ### Nothing is watched -/

@[simp] theorem parser_liftM (reader : Parser α) : (liftM reader : Parser α) = reader := rfl

@[simp] theorem parser_enter (activity : Activity) (reader : Parser α) : enter activity reader = reader := rfl

@[simp] theorem parser_handle (reader : Parser α) : handle reader = reader := rfl

/-! ### Steps to other tokens -/

section

variable [Moving rel]

instance (result : α) : Keeps rel (pure result : Parser α) := ⟨Moving.refl⟩

theorem Keeps.bind {reader : Parser α} {next : α → Parser β} (first : Keeps rel reader) (rest : ∀ result, Keeps rel (next result)) :
    Keeps rel (reader >>= next) := ⟨fun state => Moving.trans (first.keeps state) ((rest _).keeps _)⟩

instance (reader : Parser α) (next : α → Parser β) [Keeps rel reader] [∀ result, Keeps rel (next result)] :
    Keeps rel (reader >>= next) := .bind inferInstance inferInstance

instance (change : α → β) (reader : Parser α) [first : Keeps rel reader] : Keeps rel (change <$> reader) := ⟨first.keeps⟩

omit [Moving rel] in
instance (condition : Prop) [Decidable condition] (positive negative : Parser α) [Keeps rel positive] [Keeps rel negative] :
    Keeps rel (if condition then positive else negative) := by
  split <;> infer_instance

omit [Moving rel] in
instance (reader : Parser α) [first : Keeps rel reader] : Keeps rel (liftM reader : Parser α) := first

omit [Moving rel] in
instance (activity : Activity) (reader : Parser α) [first : Keeps rel reader] : Keeps rel (enter activity reader) := first

omit [Moving rel] in
instance (reader : Parser α) [first : Keeps rel reader] : Keeps rel (handle reader) := first

instance : Keeps rel (get : Parser State) := ⟨Moving.refl⟩

instance : Keeps rel advance := ⟨Moving.advance⟩

instance (problem : ParseProblem) : Keeps rel (errorAtCurrent problem) := ⟨fun state => Moving.errorAt state _ _⟩

instance (problem : ParseProblem) : Keeps rel (error problem) := ⟨fun state => Moving.errorAt state _ _⟩

instance (problem : ParseProblem) : Keeps rel (semanticError problem) := ⟨fun state => Moving.report state _ _⟩

instance (kind : TokenKind) : Keeps rel (check kind) := by
  unfold check
  infer_instance

instance : Keeps rel previous := by
  unfold previous
  infer_instance

instance (kind : TokenKind) : Keeps rel (accept kind) := by
  unfold accept
  infer_instance

instance (kind : TokenKind) (what : String) : Keeps rel (consume kind what) := by
  unfold consume
  infer_instance

instance (problem : ParseProblem) : Keeps rel (refuse problem) := by
  unfold refuse
  infer_instance

instance (text : String) : Keeps rel (intern text) := by
  unfold intern
  infer_instance

instance (steps : Nat) : Keeps rel (skipStatement steps : Parser Unit) := by
  induction steps with
  | zero => exact inferInstanceAs (Keeps rel (pure ()))
  | succ steps ih =>
    unfold skipStatement
    infer_instance

instance : Keeps rel (modify fun state => { state with panicking := false } : Parser Unit) := ⟨Moving.calm⟩

instance : Keeps rel (synchronize : Parser Unit) := by
  unfold synchronize
  infer_instance

instance : Keeps rel (recover : Parser Unit) := by
  unfold recover
  infer_instance

end

/-! ### Every reader -/

section

variable [Stepping rel] (depth steps : Nat)

instance (make : Note → Tree) : Keeps rel (alloc make) := ⟨fun state => Stepping.change state _ _ _ _⟩

instance (trees : List Tree) : Keeps rel (link trees) := ⟨fun state => Stepping.change state _ _ _ _⟩

instance (change : Scope → Scope) : Keeps rel (modifyScope change) := ⟨fun state => Stepping.change state _ _ _ _⟩

instance (name : Option String) : Keeps rel (modify fun state => { state with className := name } : Parser Unit) :=
  ⟨fun state => Stepping.change state _ _ _ _⟩

instance (change : Nat → Nat) :
    Keeps rel (modify fun state => { state with loopDepth := change state.loopDepth } : Parser Unit) :=
  ⟨fun state => Stepping.change state _ _ _ _⟩

instance (count : Nat) : Keeps rel (modify fun state => { state with loopDepth := count } : Parser Unit) :=
  ⟨fun state => Stepping.change state _ _ _ _⟩

instance (name : String) (problem : Option ParseProblem) : Keeps rel (declare name problem) := by
  unfold declare
  refine .bind inferInstance fun state => ?_
  dsimp only
  split
  · split <;> infer_instance
  · infer_instance

instance : Keeps rel declarePrevious := by
  unfold declarePrevious
  infer_instance

instance (round : Activity) (item : List Tree → Parser Tree) [∀ items, Keeps rel (item items)] (items : List Tree) :
    Keeps rel (sepByBackward round item steps items) := by
  induction steps generalizing items with
  | zero => exact inferInstanceAs (Keeps rel (pure items))
  | succ steps ih =>
    unfold sepByBackward
    infer_instance

instance (round : Activity) (item : List Tree → Parser Tree) [∀ items, Keeps rel (item items)] (first : List Tree) :
    Keeps rel (sepBy round item steps first) := by
  unfold sepBy
  infer_instance

instance (round : Activity) (ends : TokenKind → Bool) (member : Parser (Option Tree)) [Keeps rel member]
    (members : List Tree) : Keeps rel (bodyBackward round ends member steps members) := by
  induction steps generalizing members with
  | zero => exact inferInstanceAs (Keeps rel (pure members))
  | succ steps ih =>
    unfold bodyBackward
    infer_instance

instance (round : Activity) (ends : TokenKind → Bool) (member : Parser (Option Tree)) [Keeps rel member] :
    Keeps rel (body round ends member steps) := by
  unfold body
  infer_instance

instance (lexeme : String) : Keeps rel (integer lexeme) := by
  unfold integer
  split <;> infer_instance

instance (lexeme : String) : Keeps rel (string lexeme) := by
  unfold string
  infer_instance

instance (lexeme : String) : Keeps rel (nameUse lexeme) := by
  unfold nameUse
  infer_instance

instance : Keeps rel newObject := by
  unfold newObject
  infer_instance

section

variable (operand : Precedence → Parser Tree) [∀ precedence, Keeps rel (operand precedence)]

instance : Keeps rel (grouping operand) := by
  unfold grouping
  infer_instance

instance (op : UnaryOp) : Keeps rel (unary operand op) := by
  unfold unary
  infer_instance

instance : Keeps rel (array operand steps) := by
  unfold array
  infer_instance

theorem keeps_of_mem_primary? {steps : Nat} {token : Token} {reader : Parser Tree}
    (hreader : primary? operand steps token = some reader) : Keeps rel reader := by
  unfold primary? at hreader
  split at hreader
  all_goals first
    | contradiction
    | obtain rfl := Option.some.inj hreader
      infer_instance

instance (op : BinaryOp) (left : Tree) : Keeps rel (binary operand op left) := by
  unfold binary
  infer_instance

instance (condition : Tree) : Keeps rel (ternary operand condition) := by
  unfold ternary
  infer_instance

instance (before : List Tree) : Keeps rel (argument operand before) := by
  unfold argument
  infer_instance

instance (callee : Tree) : Keeps rel (call operand steps callee) := by
  unfold call
  infer_instance

instance (canAssign : Bool) (object : Tree) : Keeps rel (dot operand canAssign object) := by
  unfold dot
  infer_instance

instance (canAssign : Bool) (object : Tree) : Keeps rel (index operand canAssign object) := by
  unfold index
  infer_instance

instance (canAssign : Bool) (operator : Operator) (tree : Tree) :
    Keeps rel (follow operand steps canAssign operator tree) := by
  unfold follow
  split <;> infer_instance

instance (precedence : Precedence) (tree : Tree) :
    Keeps rel (climb operand depth precedence steps tree) := by
  induction steps generalizing tree with
  | zero => exact inferInstanceAs (Keeps rel (pure tree))
  | succ steps ih =>
    unfold climb
    refine .bind inferInstance fun state => ?_
    split <;> infer_instance

instance (target : Tree) : Keeps rel (assignment operand target) := by
  unfold assignment
  refine .bind inferInstance fun state => ?_
  split
  · infer_instance
  · refine .bind inferInstance fun _ => .bind inferInstance fun value => ?_
    repeat' split
    all_goals infer_instance

end

instance (precedence : Precedence) : Keeps rel (expressionAt depth precedence) := by
  induction depth generalizing precedence with
  | zero => exact inferInstanceAs (Keeps rel (alloc .null))
  | succ depth ih =>
    unfold expressionAt
    refine .bind inferInstance fun _ => .bind inferInstance fun token => ?_
    split
    · infer_instance
    · rename_i reader hreader
      have : Keeps rel reader := keeps_of_mem_primary? _ hreader
      infer_instance

instance : Keeps rel (expression depth) := inferInstanceAs (Keeps rel (expressionAt depth .assignment))

instance (ends : TokenKind) : Keeps rel (optionalExpression depth ends) := by
  unfold optionalExpression
  infer_instance

instance (kind : TokenKind) (reader : Parser Tree) [Keeps rel reader] : Keeps rel (behind kind reader) := by
  unfold behind
  infer_instance

instance : Keeps rel (expressionStatement depth) := by
  unfold expressionStatement
  infer_instance

instance (managed : Bool) : Keeps rel (varDeclaration depth managed) := by
  unfold varDeclaration
  refine .bind inferInstance fun _ => .bind inferInstance fun declared => ?_
  obtain ⟨name, symbol⟩ := declared
  infer_instance

instance : Keeps rel (managedDeclaration depth) := by
  unfold managedDeclaration
  infer_instance

instance : Keeps rel (returnStatement depth) := by
  unfold returnStatement
  infer_instance

instance (make : Note → Tree) : Keeps rel (loopJump make) := by
  unfold loopJump
  infer_instance

section

variable (nested : Parser Tree) [Keeps rel nested]

instance : Keeps rel (blockMember nested depth) := by
  unfold blockMember
  refine .bind inferInstance fun state => ?_
  split <;> infer_instance

instance : Keeps rel (block nested depth) := by
  unfold block
  infer_instance

instance : Keeps rel (ifStatement nested depth) := by
  unfold ifStatement
  infer_instance

instance : Keeps rel (loopBody nested) := by
  unfold loopBody
  infer_instance

instance : Keeps rel (whileStatement nested depth) := by
  unfold whileStatement
  infer_instance

instance : Keeps rel (forInitial depth) := by
  unfold forInitial
  infer_instance

omit [Keeps rel nested] in
instance : Keeps rel (forCondition depth) := by
  unfold forCondition
  refine .bind inferInstance fun condition => ?_
  split <;> infer_instance

instance : Keeps rel (forStatement nested depth) := by
  unfold forStatement
  iterate 6 refine .bind inferInstance fun _ => ?_
  infer_instance

theorem keeps_of_mem_keywordStatement? {depth : Nat} {kind : TokenKind} {reader : Parser Tree}
    (hreader : keywordStatement? nested depth kind = some reader) : Keeps rel reader := by
  unfold keywordStatement? at hreader
  split at hreader
  all_goals first
    | contradiction
    | obtain rfl := Option.some.inj hreader
      infer_instance

end

instance : Keeps rel (statement depth) := by
  induction depth with
  | zero => exact inferInstanceAs (Keeps rel (alloc .null))
  | succ depth ih =>
    unfold statement
    refine .bind inferInstance fun state => ?_
    split
    · rename_i reader hreader
      have : Keeps rel reader := keeps_of_mem_keywordStatement? _ hreader
      infer_instance
    · infer_instance

instance (sourceName : String) : Keeps rel (codeName sourceName) := by
  unfold codeName
  refine .bind inferInstance fun state => ?_
  split <;> infer_instance

instance (name : String) (symbol : Symbol) : Keeps rel (parameter name symbol) := by
  unfold parameter
  infer_instance

instance : Keeps rel receiver := by
  unfold receiver
  infer_instance

instance : Keeps rel namedParameter := by
  unfold namedParameter
  infer_instance

instance : Keeps rel (parameters steps) := by
  unfold parameters
  infer_instance

instance : Keeps rel (parametersAndBody depth) := by
  unfold parametersAndBody
  iterate 3 refine .bind inferInstance fun _ => ?_
  infer_instance

instance : Keeps rel (function depth) := by
  unfold function
  infer_instance

instance : Keeps rel (method depth) := by
  unfold method
  infer_instance

instance : Keeps rel (classDeclaration depth) := by
  unfold classDeclaration
  iterate 6 refine .bind inferInstance fun _ => ?_
  infer_instance

instance : Keeps rel (declaration depth) := by
  unfold declaration
  refine .bind inferInstance fun state => ?_
  split <;> infer_instance

instance : Keeps rel (program depth) := by
  unfold program
  infer_instance

end

end NanScript.Parser
