import NanScript.Interner
import NanScript.Parser.Precedence
import NanScript.Token.Literal

/-!
# The grammar

The language as a set of texts, apart from any way to read them. A text is a list of words. `Phrase`, `Statement`,
`Function` and `Declaration` are what the productions of the grammar build, with every parenthesis that was written;
`words` is the text of each. The types leave two things to predicates: `Grammatical` is the ladder of precedences and
the places where a declaration may stand, and `Admissible` collects the conditions that no grammar expresses, on names,
jumps and sizes.

The `else` of nested conditionals can be read in more than one way, and nothing here chooses between them.
-/

namespace NanScript.Grammar

open Operator

/-! ### Words -/

/-- A token as the grammar sees it: its kind, and its text where the kind leaves the text open. -/
structure Word where
  kind : TokenKind
  text : String
  deriving DecidableEq, Repr

/-- A word whose kind is all there is to it. -/
def sign (kind : TokenKind) : Word := ⟨kind, ""⟩

def identifier (name : String) : Word := ⟨.identifier, name⟩

end Grammar

open Grammar

/-- Whether tokens of this kind differ in their texts. -/
def TokenKind.isOpen : TokenKind → Bool
  | identifier | number | float | string => true
  | _ => false

def Token.word (token : Token) : Grammar.Word := ⟨token.kind, if token.kind.isOpen then token.lexeme else ""⟩

def BinaryOp.sign : BinaryOp → TokenKind
  | add => .plus | sub => .minus | mul => .star | div => .slash | mod => .percent
  | eq => .eqEq | notEq => .notEq | lt => .lt | ltEq => .ltEq | gt => .gt | gtEq => .gtEq
  | and => .andAnd | or => .orOr

/-- The rung of the ladder that a binary operator stands on. -/
def BinaryOp.rung : BinaryOp → Precedence
  | or => .or
  | and => .and
  | eq | notEq => .equality
  | lt | ltEq | gt | gtEq => .comparison
  | add | sub => .term
  | mul | div | mod => .factor

def UnaryOp.sign : UnaryOp → TokenKind
  | neg => .minus
  | not => .bang

/-- Whether a phrase can begin with a word of this kind. -/
def TokenKind.startsPhrase : TokenKind → Bool
  | lparen | lbracket | minus | bang | identifier | number | float | string | kwTrue | kwFalse | kwNull | kwNew => true
  | _ => false

namespace Grammar

/-- The kind of the first word, or the end. -/
def headKind : List Word → TokenKind
  | [] => .eof
  | word :: _ => word.kind

@[simp] theorem headKind_cons (word : Word) (rest : List Word) : headKind (word :: rest) = word.kind := rfl

@[simp] theorem kind_sign (kind : TokenKind) : (sign kind).kind = kind := rfl

inductive AssignmentSign where
  | plain | plus | minus | star | slash
  deriving DecidableEq, Repr

def AssignmentSign.kind : AssignmentSign → TokenKind
  | plain => .eq | plus => .plusEq | minus => .minusEq | star => .starEq | slash => .slashEq

/-- The operator that a compound assignment applies first. -/
def AssignmentSign.op : AssignmentSign → Option BinaryOp
  | plain => none | plus => some .add | minus => some .sub | star => some .mul | slash => some .div

/-- How the condition of a ternary is marked. -/
inductive TernaryMark where
  | question | is
  deriving DecidableEq, Repr

def TernaryMark.kind : TernaryMark → TokenKind
  | question => .question
  | is => .kwIs

end Grammar

/-! ### What the signs stand for -/

theorem Token.word_eq_sign {token : Token} {kind : TokenKind} (hkind : token.kind = kind)
    (hclosed : kind.isOpen = false) : token.word = sign kind := by
  simp [Token.word, sign, hkind, hclosed]

theorem Token.word_eq_open {token : Token} {kind : TokenKind} (hkind : token.kind = kind) (hopen : kind.isOpen = true) :
    token.word = ⟨kind, token.lexeme⟩ := by
  simp [Token.word, hkind, hopen]

@[simp] theorem Operator.ofToken?_sign (op : BinaryOp) : ofToken? op.sign = some (.binary op) := by
  cases op <;> rfl

theorem Operator.eq_sign_of_ofToken? {kind : TokenKind} {op : BinaryOp}
    (hoperator : ofToken? kind = some (.binary op)) : kind = op.sign := by
  cases kind <;> simp [ofToken?] at hoperator <;> subst hoperator <;> rfl

@[simp] theorem Operator.precedence_binary (op : BinaryOp) : (binary op).precedence = op.rung := by
  cases op <;> rfl

@[simp] theorem BinaryOp.isOpen_sign (op : BinaryOp) : op.sign.isOpen = false := by
  cases op <;> rfl

@[simp] theorem UnaryOp.isOpen_sign (op : UnaryOp) : op.sign.isOpen = false := by
  cases op <;> rfl

namespace Grammar

variable {phrases : List Phrase}

@[simp] theorem TernaryMark.ofToken?_kind (mark : TernaryMark) : Operator.ofToken? mark.kind = some .ternary := by
  cases mark <;> rfl

theorem TernaryMark.exists_of_ofToken? {kind : TokenKind} (hoperator : Operator.ofToken? kind = some .ternary) :
    ∃ mark : TernaryMark, kind = mark.kind := by
  cases kind <;> simp [Operator.ofToken?] at hoperator
  · exact ⟨.is, rfl⟩
  · exact ⟨.question, rfl⟩

@[simp] theorem TernaryMark.isOpen_kind (mark : TernaryMark) : mark.kind.isOpen = false := by
  cases mark <;> rfl

@[simp] theorem AssignmentSign.assignmentOp?_kind (assignment : AssignmentSign) :
    assignmentOp? assignment.kind = some assignment.op := by
  cases assignment <;> rfl

theorem AssignmentSign.exists_of_assignmentOp? {kind : TokenKind} {op : Option BinaryOp}
    (hassignment : assignmentOp? kind = some op) :
    ∃ assignment : AssignmentSign, kind = assignment.kind ∧ op = assignment.op := by
  cases kind <;> simp [assignmentOp?] at hassignment <;> subst hassignment
  · exact ⟨.plain, rfl, rfl⟩
  · exact ⟨.plus, rfl, rfl⟩
  · exact ⟨.minus, rfl, rfl⟩
  · exact ⟨.star, rfl, rfl⟩
  · exact ⟨.slash, rfl, rfl⟩

@[simp] theorem AssignmentSign.isOpen_kind (assignment : AssignmentSign) : assignment.kind.isOpen = false := by
  cases assignment <;> rfl

/-! ### Expressions -/

/-- An expression as it is written. Literals keep their lexemes. -/
inductive Phrase where
  | integer (lexeme : String)
  | float (lexeme : String)
  | string (lexeme : String)
  | bool (value : Bool)
  | null
  | use (name : String)
  | new (className : String)
  | group (inner : Phrase)
  | array (items : List Phrase)
  | unary (op : UnaryOp) (operand : Phrase)
  | binary (op : BinaryOp) (left right : Phrase)
  | ternary (mark : TernaryMark) (condition positive negative : Phrase)
  | call (callee : Phrase) (arguments : List Phrase)
  | get (object : Phrase) (name : String)
  | index (object position : Phrase)
  | assign (target : Phrase) (assignment : AssignmentSign) (value : Phrase)
  | set (object : Phrase) (name : String) (value : Phrase)
  | setIndex (object position value : Phrase)
  deriving Repr

namespace Phrase

mutual

@[simp] def words : Phrase → List Word
  | integer lexeme => [⟨.number, lexeme⟩]
  | float lexeme => [⟨.float, lexeme⟩]
  | string lexeme => [⟨.string, lexeme⟩]
  | bool value => [sign (if value then .kwTrue else .kwFalse)]
  | null => [sign .kwNull]
  | use name => [identifier name]
  | new className => [sign .kwNew, identifier className, sign .lparen, sign .rparen]
  | group inner => sign .lparen :: inner.words ++ [sign .rparen]
  | array items => sign .lbracket :: (commaWords items).tail ++ [sign .rbracket]
  | unary op operand => sign op.sign :: operand.words
  | binary op left right => left.words ++ sign op.sign :: right.words
  | ternary mark condition positive negative =>
    condition.words ++ sign mark.kind :: positive.words ++ sign .colon :: negative.words
  | call callee arguments => callee.words ++ sign .lparen :: (commaWords arguments).tail ++ [sign .rparen]
  | get object name => object.words ++ [sign .dot, identifier name]
  | index object position => object.words ++ sign .lbracket :: position.words ++ [sign .rbracket]
  | assign target assignment value => target.words ++ sign assignment.kind :: value.words
  | set object name value => object.words ++ sign .dot :: identifier name :: sign .eq :: value.words
  | setIndex object position value =>
    object.words ++ sign .lbracket :: position.words ++ sign .rbracket :: sign .eq :: value.words

/-- Every phrase with a comma in front. -/
@[simp] def commaWords : List Phrase → List Word
  | [] => []
  | phrase :: rest => sign .comma :: phrase.words ++ commaWords rest

end

theorem words_ne_nil (phrase : Phrase) : phrase.words ≠ [] := by
  cases phrase <;> simp [words]

theorem length_words_le_commaWords {phrase : Phrase} (hphrase : phrase ∈ phrases) :
    phrase.words.length < (commaWords phrases).length := by
  induction phrases with
  | nil => contradiction
  | cons first rest ih =>
    simp only [commaWords, List.length_append, List.length_cons]
    rcases List.mem_cons.1 hphrase with rfl | hphrase
    · omega
    · have hshorter := ih hphrase
      omega

theorem length_le_commaWords (phrases : List Phrase) : phrases.length ≤ (commaWords phrases).length := by
  induction phrases with
  | nil => exact Nat.zero_le _
  | cons phrase rest ih =>
    simp only [commaWords, List.length_append, List.length_cons]
    omega

theorem startsPhrase_headKind (rest : List Word) :
    (phrase : Phrase) → (headKind (phrase.words ++ rest)).startsPhrase = true
  | integer _ | float _ | string _ | null | use _ | new _ | group _ | array _ => rfl
  | bool value => by cases value <;> rfl
  | unary op _ => by cases op <;> rfl
  | binary _ first _ | ternary _ first _ _ | call first _ | get first _ | index first _ | assign first _ _ | set first _ _
  | setIndex first _ _ => by
    simp only [words, List.append_assoc, List.cons_append]
    exact startsPhrase_headKind _ first

/-- The rung of the ladder that a phrase stands on: it can be an operand wherever this rung or a looser one is asked. -/
def level : Phrase → Precedence
  | assign .. | set .. | setIndex .. => .assignment
  | ternary .. => .ternary
  | binary op .. => op.rung
  | unary .. => .unary
  | call .. | get .. | index .. => .call
  | _ => .primary

/-- The variable that a phrase names, in any number of parentheses. -/
def target? : Phrase → Option String
  | use name => some name
  | group inner => inner.target?
  | _ => none

mutual

/-- Every operand stands on the ladder where its operator wants it. Binary operators group to the left, the ternary and
assignments to the right. Variables, properties and elements can be assigned to. -/
def Grammatical : Phrase → Prop
  | group inner => inner.Grammatical
  | array items => AllGrammatical items
  | unary _ operand => .unary ≤ operand.level ∧ operand.Grammatical
  | binary op left right => (op.rung ≤ left.level ∧ left.Grammatical) ∧ op.rung.next ≤ right.level ∧ right.Grammatical
  | ternary _ condition positive negative =>
    (.or ≤ condition.level ∧ condition.Grammatical) ∧ (.ternary ≤ positive.level ∧ positive.Grammatical) ∧
      .ternary ≤ negative.level ∧ negative.Grammatical
  | call callee arguments => (.call ≤ callee.level ∧ callee.Grammatical) ∧ AllGrammatical arguments
  | get object _ => .call ≤ object.level ∧ object.Grammatical
  | index object position => (.call ≤ object.level ∧ object.Grammatical) ∧ position.Grammatical
  | assign target _ value => target.target?.isSome ∧ value.Grammatical
  | set object _ value => (.call ≤ object.level ∧ object.Grammatical) ∧ value.Grammatical
  | setIndex object position value =>
    (.call ≤ object.level ∧ object.Grammatical) ∧ position.Grammatical ∧ value.Grammatical
  | _ => True

def AllGrammatical : List Phrase → Prop
  | [] => True
  | phrase :: rest => phrase.Grammatical ∧ AllGrammatical rest

end

theorem allGrammatical_iff : AllGrammatical phrases ↔ ∀ phrase ∈ phrases, phrase.Grammatical := by
  induction phrases with
  | nil => simp [AllGrammatical]
  | cons phrase rest ih => simp [AllGrammatical, ih]

mutual

/-- The variables that a phrase reads or assigns to. -/
@[simp] def names : Phrase → List String
  | use name => [name]
  | group inner => inner.names
  | array items => allNames items
  | unary _ operand => operand.names
  | binary _ left right => left.names ++ right.names
  | ternary _ condition positive negative => condition.names ++ positive.names ++ negative.names
  | call callee arguments => callee.names ++ allNames arguments
  | get object _ => object.names
  | index object position => object.names ++ position.names
  | assign target _ value => target.names ++ value.names
  | set object _ value => object.names ++ value.names
  | setIndex object position value => object.names ++ position.names ++ value.names
  | _ => []

def allNames : List Phrase → List String
  | [] => []
  | phrase :: rest => phrase.names ++ allNames rest

end

theorem mem_allNames {name : String} : name ∈ allNames phrases ↔ ∃ phrase ∈ phrases, name ∈ phrase.names := by
  induction phrases with
  | nil => simp [allNames]
  | cons phrase rest ih => simp [allNames, ih]

/-- The values that a phrase is made of. -/
def parts : Phrase → List Phrase
  | group part | unary _ part | get part _ | assign _ _ part => [part]
  | array items => items
  | binary _ first second | index first second | set first _ second => [first, second]
  | ternary _ first second third | setIndex first second third => [first, second, third]
  | call callee arguments => callee :: arguments
  | _ => []

/-- What holds of a phrase as soon as it holds of its parts holds of every phrase. -/
theorem of_parts {property : Phrase → Prop}
    (hstep : ∀ phrase : Phrase, (∀ part ∈ phrase.parts, property part) → property phrase) (phrase : Phrase) :
    property phrase := by
  refine hstep phrase fun part hpart => ?_
  have hless : sizeOf part < sizeOf phrase := by
    have hlist := @List.sizeOf_lt_of_mem Phrase part _
    cases phrase <;> grind [parts]
  exact of_parts hstep part

theorem Grammatical.of_part {phrase part : Phrase} (hgrammatical : phrase.Grammatical) (hpart : part ∈ phrase.parts) :
    part.Grammatical := by
  cases phrase <;> grind [parts, Grammatical, allGrammatical_iff]

theorem mem_names_of_part {phrase part : Phrase} (hpart : part ∈ phrase.parts) {name : String} (hname : name ∈ part.names) :
    name ∈ phrase.names := by
  cases phrase <;> grind [parts, names, mem_allNames]

end Phrase

/-- Whether a text is short enough to be kept as a name. -/
def Nameable (text : String) : Prop := text.utf8ByteSize ≤ 65535

instance (text : String) : Decidable (Nameable text) := inferInstanceAs (Decidable (_ ≤ _))

/-- The number that the digits of an integer literal denote in its radix, however large. -/
def integerValue (lexeme : String) : Nat :=
  Binary64.digitsValue (Literal.radixDigits lexeme.toList).1 (Literal.radixDigits lexeme.toList).2

theorem integer?_eq_some {lexeme : String} {value : Nat} :
    Literal.integer? lexeme = some value ↔ integerValue lexeme < 0x8000000000000000 ∧ integerValue lexeme = value := by
  change (if integerValue lexeme < 0x8000000000000000 then some (integerValue lexeme) else none) = some value ↔ _
  rw [Option.ite_none_right_eq_some, Option.some.injEq]

namespace Phrase

mutual

/-- Integers lie below 2⁶³, texts are not too long, and calls have at most 255 arguments. -/
def WithinLimits : Phrase → Prop
  | integer lexeme => integerValue lexeme < 0x8000000000000000
  | string lexeme => Nameable (Literal.unescape lexeme)
  | use name => Nameable name
  | new className => Nameable className
  | group inner => inner.WithinLimits
  | array items => AllWithinLimits items
  | unary _ operand => operand.WithinLimits
  | binary _ left right => left.WithinLimits ∧ right.WithinLimits
  | ternary _ condition positive negative =>
    condition.WithinLimits ∧ positive.WithinLimits ∧ negative.WithinLimits
  | call callee arguments => callee.WithinLimits ∧ arguments.length ≤ 255 ∧ AllWithinLimits arguments
  | get object name => object.WithinLimits ∧ Nameable name
  | index object position => object.WithinLimits ∧ position.WithinLimits
  | assign target _ value => target.WithinLimits ∧ value.WithinLimits
  | set object name value => object.WithinLimits ∧ Nameable name ∧ value.WithinLimits
  | setIndex object position value => object.WithinLimits ∧ position.WithinLimits ∧ value.WithinLimits
  | _ => True

def AllWithinLimits : List Phrase → Prop
  | [] => True
  | phrase :: rest => phrase.WithinLimits ∧ AllWithinLimits rest

end

theorem allWithinLimits_iff : AllWithinLimits phrases ↔ ∀ phrase ∈ phrases, phrase.WithinLimits := by
  induction phrases with
  | nil => simp [AllWithinLimits]
  | cons phrase rest ih => simp [AllWithinLimits, ih]

end Phrase

/-! ### Statements -/

structure Variable where
  managed : Bool
  name : String
  initial : Option Phrase
  deriving Repr

/-- An optional phrase, with the words in front of it if it is there. -/
def optionWords (before : List Word) : Option Phrase → List Word
  | none => []
  | some phrase => before ++ phrase.words

namespace Variable

/-- The declaration from its name on. -/
def tailWords (var : Variable) : List Word :=
  identifier var.name :: optionWords [sign .eq] var.initial ++ [sign .semicolon]

def words (var : Variable) : List Word :=
  if var.managed then sign .kwManaged :: sign .kwVar :: var.tailWords else sign .kwVar :: var.tailWords

end Variable

/-- What stands before the first semicolon of a `for`. -/
inductive ForInitial where
  | nothing
  | var (name : String) (initial : Option Phrase)
  | expression (phrase : Phrase)
  deriving Repr

def ForInitial.words : ForInitial → List Word
  | nothing => [sign .semicolon]
  | var name initial => (Variable.mk false name initial).words
  | expression phrase => phrase.words ++ [sign .semicolon]

inductive Statement where
  | expression (phrase : Phrase)
  | declaration (var : Variable)
  | ifElse (condition : Phrase) (positive : Statement) (negative : Option Statement)
  | whileLoop (condition : Phrase) (body : Statement)
  | forLoop (initial : ForInitial) (condition step : Option Phrase) (body : Statement)
  | ret (value : Option Phrase)
  | breakLoop
  | continueLoop
  | block (members : List Statement)
  deriving Repr

namespace Statement

mutual

@[simp] def words : Statement → List Word
  | expression phrase => phrase.words ++ [sign .semicolon]
  | declaration var => var.words
  | ifElse condition positive negative =>
    sign .kwIf :: sign .lparen :: condition.words ++ sign .rparen :: positive.words ++ elseWords negative
  | whileLoop condition body => sign .kwWhile :: sign .lparen :: condition.words ++ sign .rparen :: body.words
  | forLoop initial condition step body =>
    sign .kwFor :: sign .lparen :: initial.words ++ optionWords [] condition ++ sign .semicolon ::
      optionWords [] step ++ sign .rparen :: body.words
  | ret value => sign .kwReturn :: optionWords [] value ++ [sign .semicolon]
  | breakLoop => [sign .kwBreak, sign .semicolon]
  | continueLoop => [sign .kwContinue, sign .semicolon]
  | block members => sign .lbrace :: allWords members ++ [sign .rbrace]

def elseWords : Option Statement → List Word
  | none => []
  | some statement => sign .kwElse :: statement.words

def allWords : List Statement → List Word
  | [] => []
  | statement :: rest => statement.words ++ allWords rest

end

/-- A declaration is no statement by itself: it stands in a block. -/
def IsPlain : Statement → Prop
  | declaration _ => False
  | _ => True

end Statement

def Variable.Grammatical (var : Variable) : Prop := ∀ phrase ∈ var.initial, phrase.Grammatical

def ForInitial.Grammatical : ForInitial → Prop
  | nothing => True
  | var _ initial => ∀ phrase ∈ initial, phrase.Grammatical
  | expression phrase => phrase.Grammatical

namespace Statement

mutual

/-- Variables are declared directly in a block or at the head of a `for`, nowhere else. -/
def Grammatical : Statement → Prop
  | expression phrase => phrase.Grammatical
  | declaration var => var.Grammatical
  | ifElse condition positive negative =>
    condition.Grammatical ∧ (positive.IsPlain ∧ positive.Grammatical) ∧ ElseGrammatical negative
  | whileLoop condition body => condition.Grammatical ∧ body.IsPlain ∧ body.Grammatical
  | forLoop initial condition step body =>
    initial.Grammatical ∧ (∀ phrase ∈ condition, phrase.Grammatical) ∧ (∀ phrase ∈ step, phrase.Grammatical) ∧
      body.IsPlain ∧ body.Grammatical
  | ret value => ∀ phrase ∈ value, phrase.Grammatical
  | breakLoop | continueLoop => True
  | block members => AllGrammatical members

def ElseGrammatical : Option Statement → Prop
  | none => True
  | some statement => statement.IsPlain ∧ statement.Grammatical

def AllGrammatical : List Statement → Prop
  | [] => True
  | statement :: rest => statement.Grammatical ∧ AllGrammatical rest

end

/-- The variable that a member of a block declares in it. -/
def declared? : Statement → Option String
  | declaration var => some var.name
  | _ => none

end Statement

/-- A local variable has a name that can be kept, and its own initial value does not mention it. -/
def LocalAdmissible (name : String) (initial : Option Phrase) : Prop :=
  Nameable name ∧ ∀ phrase ∈ initial, phrase.WithinLimits ∧ name ∉ phrase.names

def ForInitial.Admissible : ForInitial → Prop
  | nothing => True
  | var name initial => LocalAdmissible name initial
  | expression phrase => phrase.WithinLimits

namespace Statement

mutual

/-- No block declares a name twice, no local variable is mentioned in its own initial value, and jumps are made in loops
only. -/
def Admissible (inLoop : Bool) : Statement → Prop
  | expression phrase => phrase.WithinLimits
  | declaration var => LocalAdmissible var.name var.initial
  | ifElse condition positive negative =>
    condition.WithinLimits ∧ positive.Admissible inLoop ∧ ElseAdmissible inLoop negative
  | whileLoop condition body => condition.WithinLimits ∧ body.Admissible true
  | forLoop initial condition step body =>
    initial.Admissible ∧ (∀ phrase ∈ condition, phrase.WithinLimits) ∧ (∀ phrase ∈ step, phrase.WithinLimits) ∧
      body.Admissible true
  | ret value => ∀ phrase ∈ value, phrase.WithinLimits
  | breakLoop | continueLoop => inLoop = true
  | block members => (members.filterMap declared?).Nodup ∧ AllAdmissible inLoop members

def ElseAdmissible (inLoop : Bool) : Option Statement → Prop
  | none => True
  | some statement => statement.Admissible inLoop

def AllAdmissible (inLoop : Bool) : List Statement → Prop
  | [] => True
  | statement :: rest => statement.Admissible inLoop ∧ AllAdmissible inLoop rest

end

end Statement

/-! ### Programs -/

structure Function where
  name : String
  parameters : List String
  body : List Statement
  deriving Repr

namespace Function

def commaWords (parameters : List String) : List Word :=
  parameters.flatMap fun parameter => [sign .comma, identifier parameter]

/-- The function from its name on. -/
def tailWords (function : Function) : List Word :=
  identifier function.name :: sign .lparen :: (commaWords function.parameters).tail ++ sign .rparen ::
    (Statement.block function.body).words

def words (function : Function) : List Word := sign .kwFunc :: function.tailWords

/-- A function, or a method of a class. The parameters of a method include the receiver, and a method is also kept under
a name made of both names. -/
def Admissible (className : Option String) (function : Function) : Prop :=
  Nameable function.name ∧ (∀ owner ∈ className, Nameable s!"{owner}_{function.name}") ∧
    (∀ parameter ∈ function.parameters, Nameable parameter) ∧
    (className.toList.map (fun _ => "this") ++ function.parameters).Nodup ∧
    (Statement.block function.body).Admissible false

end Function

inductive Declaration where
  | funcDecl (function : Function)
  | classDecl (name : String) (methods : List Function)
  | varDecl (var : Variable)
  deriving Repr

namespace Declaration

def words : Declaration → List Word
  | funcDecl function => function.words
  | classDecl name methods =>
    sign .kwClass :: identifier name :: sign .lbrace :: methods.flatMap Function.words ++ [sign .rbrace]
  | varDecl var => var.words

theorem words_ne_nil (declaration : Declaration) : declaration.words ≠ [] := by
  cases declaration with
  | funcDecl function => simp [words, Function.words]
  | classDecl name methods => simp [words]
  | varDecl var => cases hmanaged : var.managed <;> simp [words, Variable.words, hmanaged]

def Grammatical : Declaration → Prop
  | funcDecl function => Statement.AllGrammatical function.body
  | classDecl _ methods => ∀ method ∈ methods, Statement.AllGrammatical method.body
  | varDecl var => var.Grammatical

/-- A top-level variable may be mentioned in its own initial value. -/
def Admissible : Declaration → Prop
  | funcDecl function => function.Admissible none
  | classDecl name methods => Nameable name ∧ ∀ method ∈ methods, method.Admissible (some name)
  | varDecl var => Nameable var.name ∧ ∀ phrase ∈ var.initial, phrase.WithinLimits

def global? : Declaration → Option String
  | varDecl var => some var.name
  | _ => none

end Declaration

abbrev Program := List Declaration

namespace Program

def words (program : Program) : List Word := program.flatMap Declaration.words

def Grammatical (program : Program) : Prop := ∀ declaration ∈ program, declaration.Grammatical

/-- No two top-level variables have one name. -/
def Admissible (program : Program) : Prop :=
  (program.filterMap Declaration.global?).Nodup ∧ ∀ declaration ∈ program, declaration.Admissible

end Program

end NanScript.Grammar
