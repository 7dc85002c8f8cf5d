import NanScript.Proofs.Grammar
import NanScript.Proofs.IntegerLiteral
import NanScript.Proofs.StringLiteral

/-!
# The words of a text

What the grammar sees of a text: its words. A lexeme at the front of a text is a word of its own if what follows cannot belong to
it; `Ends` says that of all lexemes which an expression can end with.
-/

namespace NanScript

open Grammar

namespace Lexer

/-! ### Words -/

/-- The words of a text. -/
def words (text : List Char) : List Grammar.Word := (Cursor.mk text 1).tokens.map Token.word

theorem words_eq_map (text : List Char) :
    words text = (spellings text).map fun spelling => ⟨spelling.1, if spelling.1.isOpen then spelling.2 else ""⟩ := by
  rw [words, spellings, List.map_map]
  rfl

theorem words_nil : words [] = [sign .eof] := by
  rw [words_eq_map, spellings_nil]
  rfl

theorem words_blank (text : List Char) : words (' ' :: text) = words text := by
  rw [words_eq_map, spellings_blank, ← words_eq_map]

variable {kind : TokenKind}

theorem Cuts.words {text rest : List Char} (hcuts : Cuts text kind rest) :
    words (text ++ rest) = ⟨kind, if kind.isOpen then String.ofList text else ""⟩ :: Lexer.words rest := by
  rw [words_eq_map, hcuts.spellings, List.map_cons, ← words_eq_map]

/-! ### Lexemes -/

theorem isName_keyword (hkind : kind ∈ TokenKind.keywords) : IsName kind.display.toList ∧ kind.isOpen = false := by
  simp only [TokenKind.keywords, List.mem_cons, List.not_mem_nil, or_false] at hkind
  rcases hkind with rfl | rfl | rfl | rfl | rfl | rfl | rfl | rfl | rfl | rfl | rfl | rfl | rfl | rfl | rfl | rfl <;>
    refine ⟨⟨?_, List.all_eq_true.1 ?_⟩, ?_⟩ <;> decide

theorem words_keyword (hkind : kind ∈ TokenKind.keywords) {rest : List Char} (hrest : Stops isNamePart rest) :
    words (kind.display.toList ++ rest) = sign kind :: words rest := by
  obtain ⟨hname, hclosed⟩ := isName_keyword hkind
  rw [(Cuts.name hname hrest).words, String.ofList_toList, TokenKind.ofKeyword?_display hkind, Option.getD_some, hclosed]
  rfl

end Lexer

/-- A name that a text can introduce. -/
def IsIdentifier (name : String) : Prop := Lexer.IsName name.toList ∧ TokenKind.ofKeyword? name = none

instance (name : String) : Decidable (IsIdentifier name) := inferInstanceAs (Decidable (_ ∧ _))

namespace Lexer

variable {rest : List Char}

theorem words_identifier {name : String} (hname : IsIdentifier name) (hrest : Stops isNamePart rest) :
    words (name.toList ++ rest) = identifier name :: words rest := by
  rw [(Cuts.name hname.1 hrest).words, String.ofList_toList, hname.2]
  rfl

/-- Words of an expression do not go on with what follows. -/
def Ends : List Char → Prop
  | [] => True
  | '.' :: second :: _ => isNameStart second = true
  | first :: _ => first ∈ [' ', ')', ']', ',', ';', '(', '[']

theorem ends_cons {first : Char} (hfirst : first ∈ [' ', ')', ']', ',', ';', '(', '[']) (rest : List Char) :
    Ends (first :: rest) := by
  unfold Ends
  split
  · trivial
  · next hsame =>
    obtain ⟨rfl, -⟩ := List.cons.inj hsame
    exact absurd hfirst (by decide)
  · next hsame => exact (List.cons.inj hsame).1 ▸ hfirst

theorem Ends.head (hends : Ends rest) {c : Char} (hc : c ∈ rest.head?) :
    c ∈ ['.', ' ', ')', ']', ',', ';', '(', '['] := by
  unfold Ends at hends
  split at hends
  · contradiction
  · exact Option.some.inj hc ▸ List.mem_cons_self
  · exact Option.some.inj hc ▸ List.mem_cons_of_mem _ hends

theorem Ends.of_head {part : Char → Bool} (hpart : ['.', ' ', ')', ']', ',', ';', '(', '['].all (!part ·) = true) {rest : List Char}
    (hends : Ends rest) : Stops part rest := by
  intro c hc
  simpa using List.all_eq_true.1 hpart c (hends.head hc)

theorem words_number {digits : List Char} (hnonempty : digits ≠ []) (hdigits : ∀ c ∈ digits, c.isDigit = true)
    (hrest : Ends rest) : words (digits ++ rest) = ⟨.number, String.ofList digits⟩ :: words rest := by
  refine (Cuts.whole hnonempty hdigits (hrest.of_head (by decide)) ?_).words
  rintro first second more rfl
  refine ⟨?_, fun _ => ?_⟩
  · rintro rfl
    exact isDigit_of_isNameStart hrest
  · have hhead := hrest.head rfl
    simp only [List.mem_cons, List.not_mem_nil, or_false] at hhead
    rcases hhead with rfl | rfl | rfl | rfl | rfl | rfl | rfl | rfl <;> rfl

/-! ### Signs -/

variable {kind : TokenKind}

theorem words_sign (hkind : kind ∈ signs) (hclosed : kind.isOpen = false) (hrest : Stops (joins kind).contains rest) :
    words (kind.display.toList ++ rest) = sign kind :: words rest := by
  rw [(Cuts.sign hkind hrest).words, hclosed]
  rfl

/-- Signs that are complete whatever follows. -/
def closedSigns : List TokenKind := [.lparen, .rparen, .lbracket, .rbracket, .semicolon, .comma, .dot, .colon, .question]

theorem words_closed (hkind : kind ∈ closedSigns) (rest : List Char) :
    words (kind.display.toList ++ rest) = sign kind :: words rest := by
  have hsign : kind ∈ signs ∧ kind.isOpen = false ∧ joins kind = [] := by
    revert hkind
    cases kind <;> decide
  exact words_sign hsign.1 hsign.2.1 (by rw [hsign.2.2]; exact fun _ _ => rfl)

theorem words_sign_blank (hkind : kind ∈ signs) (hclosed : kind.isOpen = false) (rest : List Char) :
    words (kind.display.toList ++ ' ' :: rest) = sign kind :: words rest := by
  rw [← words_blank rest]
  refine words_sign hkind hclosed ?_
  rintro _ ⟨⟩
  revert hkind
  cases kind <;> decide

theorem words_binary (op : BinaryOp) (rest : List Char) :
    words (op.sign.display.toList ++ ' ' :: rest) = sign op.sign :: words rest :=
  words_sign_blank (by cases op <;> decide) op.isOpen_sign rest

theorem words_ternary (mark : TernaryMark) (rest : List Char) :
    words (mark.kind.display.toList ++ ' ' :: rest) = sign mark.kind :: words rest := by
  cases mark with
  | question => exact words_sign_blank (by decide) rfl rest
  | is =>
    rw [← words_blank rest]
    exact words_keyword (by decide) (by rintro _ ⟨⟩; decide)

theorem words_assignment (assignment : AssignmentSign) (rest : List Char) :
    words (assignment.kind.display.toList ++ ' ' :: rest) = sign assignment.kind :: words rest :=
  words_sign_blank (by cases assignment <;> decide) (by cases assignment <;> rfl) rest

/-- An operator in front of its operand does not become another sign with it. -/
theorem words_unary (op : UnaryOp) (hrest : ∀ c ∈ rest.head?, c ≠ '=' ∧ c ≠ '>') :
    words (op.sign.display.toList ++ rest) = sign op.sign :: words rest := by
  refine words_sign (by cases op <;> decide) op.isOpen_sign fun c hc => ?_
  cases op <;> simp [UnaryOp.sign, joins, hrest c hc]

/-! ### Strings -/

theorem words_quote (text rest : List Char) :
    words (quote text ++ rest) = ⟨.string, String.ofList (quote text)⟩ :: words rest :=
  (Cuts.string (Literal.writes_escapeBody text).stringBody).words

end Lexer

namespace Literal

theorem integerValue_repr (value : Nat) : integerValue value.repr = value := by
  obtain ⟨-, hdigits, hnumber⟩ := @number_toDigits 10 (by decide) Char.isDigit (by decide) value
  rw [integerValue, Nat.toList_repr, radixDigits_digits hdigits, digitsValue_eq fun c hc => isHexDigit_of_isDigit (hdigits c hc)]
  exact hnumber

end Literal

end NanScript
