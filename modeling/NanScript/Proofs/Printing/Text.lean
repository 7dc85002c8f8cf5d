import NanScript.Proofs.Printing.Lexemes

/-!
# The text of a phrase

Phrases are written with a blank around each operator between two operands, and behind each comma. Such a text has the words of
the phrase: `Legible` says so for whatever can follow, and holds of a phrase if it holds of its parts.
-/

namespace NanScript.Grammar.Phrase

open Lexer List

mutual

/-- How a phrase is written. -/
@[simp] def text : Phrase → List Char
  | integer lexeme | float lexeme | string lexeme => lexeme.toList
  | bool value => (if value then TokenKind.kwTrue else .kwFalse).display.toList
  | null => TokenKind.kwNull.display.toList
  | use name => name.toList
  | new className => TokenKind.kwNew.display.toList ++ ' ' :: (className.toList ++ ['(', ')'])
  | group inner => '(' :: (inner.text ++ [')'])
  | array items => '[' :: ((commaText items).drop 2 ++ [']'])
  | unary op operand => op.sign.display.toList ++ operand.text
  | binary op left right => left.text ++ ' ' :: (op.sign.display.toList ++ ' ' :: right.text)
  | ternary mark condition positive negative =>
    condition.text ++ ' ' :: (mark.kind.display.toList ++ ' ' :: (positive.text ++ ' ' :: ':' :: ' ' :: negative.text))
  | call callee arguments => callee.text ++ '(' :: ((commaText arguments).drop 2 ++ [')'])
  | get object name => object.text ++ '.' :: name.toList
  | index object position => object.text ++ '[' :: (position.text ++ [']'])
  | assign target assignment value => target.text ++ ' ' :: (assignment.kind.display.toList ++ ' ' :: value.text)
  | set object name value => object.text ++ '.' :: (name.toList ++ ' ' :: '=' :: ' ' :: value.text)
  | setIndex object position value => object.text ++ '[' :: (position.text ++ ']' :: ' ' :: '=' :: ' ' :: value.text)

/-- Every phrase with a comma and a blank in front. -/
@[simp] def commaText : List Phrase → List Char
  | [] => []
  | phrase :: rest => ',' :: ' ' :: (phrase.text ++ commaText rest)

end

/-- The text of a phrase has its words, and can follow an operator. -/
structure Legible (phrase : Phrase) : Prop where
  words {rest : List Char} (hrest : Ends rest) : Lexer.words (phrase.text ++ rest) = phrase.words ++ Lexer.words rest
  begins : ∃ first more, phrase.text = first :: more ∧ first ≠ '=' ∧ first ≠ '>'

section

variable {phrase left right condition positive negative callee object position value : Phrase} {phrases : List Phrase}
  {name : String} {rest : List Char}

theorem words_lparen : Lexer.words ('(' :: rest) = sign .lparen :: Lexer.words rest := @words_closed .lparen (by decide) rest

theorem words_rparen : Lexer.words (')' :: rest) = sign .rparen :: Lexer.words rest := @words_closed .rparen (by decide) rest

theorem words_lbracket : Lexer.words ('[' :: rest) = sign .lbracket :: Lexer.words rest :=
  @words_closed .lbracket (by decide) rest

theorem words_rbracket : Lexer.words (']' :: rest) = sign .rbracket :: Lexer.words rest :=
  @words_closed .rbracket (by decide) rest

theorem words_comma : Lexer.words (',' :: rest) = sign .comma :: Lexer.words rest := @words_closed .comma (by decide) rest

theorem words_dot : Lexer.words ('.' :: rest) = sign .dot :: Lexer.words rest := @words_closed .dot (by decide) rest

theorem words_colon : Lexer.words (':' :: rest) = sign .colon :: Lexer.words rest := @words_closed .colon (by decide) rest

theorem words_semicolon : Lexer.words (';' :: rest) = sign .semicolon :: Lexer.words rest :=
  @words_closed .semicolon (by decide) rest

theorem words_eq : Lexer.words ('=' :: ' ' :: rest) = sign .eq :: Lexer.words rest := words_assignment .plain rest

theorem ends_name (hname : IsIdentifier name) : Ends ('.' :: (name.toList ++ rest)) := by
  have hfirst := hname.1
  cases htext : name.toList with
  | nil =>
    rw [htext] at hfirst
    exact hfirst.elim
  | cons first more =>
    rw [htext] at hfirst
    exact hfirst.1

theorem begins_append (hleft : left.Legible) (rest : List Char) :
    ∃ first more, left.text ++ rest = first :: more ∧ first ≠ '=' ∧ first ≠ '>' := by
  obtain ⟨first, more, htext, hfirst⟩ := hleft.begins
  exact ⟨first, more ++ rest, by rw [htext, cons_append], hfirst⟩

theorem begins_name {chars : List Char} (hname : IsName chars) (rest : List Char) :
    ∃ first more, chars ++ rest = first :: more ∧ first ≠ '=' ∧ first ≠ '>' := by
  match chars, hname with
  | first :: more, ⟨hfirst, _⟩ =>
    refine ⟨first, more ++ rest, rfl, ?_, ?_⟩ <;> rintro rfl <;> exact absurd hfirst (by decide)

/-! ### Operands -/

theorem legible_integer (value : Nat) : (integer value.repr).Legible := by
  have hdigits : ∀ c ∈ Nat.toDigits 10 value, c.isDigit = true := fun c hc =>
    Nat.isDigit_of_mem_toDigits (by decide) (by decide) hc
  refine ⟨fun hrest => ?_, ?_⟩
  · rw [text, Nat.toList_repr, words_number Nat.toDigits_ne_nil hdigits hrest, ← Nat.repr_eq_ofList_toDigits]
    rfl
  · rw [text, Nat.toList_repr]
    obtain ⟨first, more, hlist⟩ := exists_cons_of_ne_nil (@Nat.toDigits_ne_nil value 10)
    have hfirst := hdigits first (by rw [hlist]; exact mem_cons_self)
    refine ⟨first, more, hlist, ?_, ?_⟩ <;> rintro rfl <;> exact absurd hfirst (by decide)

theorem legible_string (value : String) : (string (String.ofList (quote value.toList))).Legible := by
  refine ⟨fun hrest => ?_, ?_⟩
  · rw [text, String.toList_ofList, words_quote]
    rfl
  · rw [text, String.toList_ofList]
    exact ⟨'"', _, rfl, by decide, by decide⟩

theorem legible_keyword {kind : TokenKind} (hkind : kind ∈ TokenKind.keywords) (htext : phrase.text = kind.display.toList)
    (hwords : phrase.words = [sign kind]) : phrase.Legible := by
  refine ⟨fun hrest => ?_, ?_⟩
  · rw [htext, hwords, words_keyword hkind (Ends.of_head (by decide) hrest)]
    rfl
  · rw [htext, ← append_nil kind.display.toList]
    exact begins_name (isName_keyword hkind).1 []

theorem legible_bool : (flag : Bool) → (bool flag).Legible
  | true => @legible_keyword _ .kwTrue (by decide) rfl rfl
  | false => @legible_keyword _ .kwFalse (by decide) rfl rfl

theorem legible_null : null.Legible := @legible_keyword _ .kwNull (by decide) rfl rfl

theorem legible_use (hname : IsIdentifier name) : (use name).Legible := by
  refine ⟨fun hrest => ?_, ?_⟩
  · rw [text, words_identifier hname (Ends.of_head (by decide) hrest)]
    rfl
  · rw [text, ← append_nil name.toList]
    exact begins_name hname.1 []

theorem legible_new (hname : IsIdentifier name) : (new name).Legible := by
  refine ⟨fun {rest} hrest => ?_, begins_name (isName_keyword (by decide)).1 _⟩
  simp only [text, append_assoc, cons_append, nil_append]
  rw [words_keyword (by decide) (by rintro _ ⟨⟩; decide), words_blank, words_identifier hname (by rintro _ ⟨⟩; decide),
    words_lparen, words_rparen]
  rfl

theorem legible_group (hinner : phrase.Legible) : (group phrase).Legible := by
  refine ⟨fun {rest} hrest => ?_, ⟨'(', _, rfl, by decide, by decide⟩⟩
  simp only [text, words, append_assoc, cons_append, nil_append]
  rw [words_lparen, hinner.words (ends_cons (by decide) _), words_rparen]

/-! ### Lists -/

theorem ends_commaText (hrest : Ends rest) : Ends (commaText phrases ++ rest) := by
  cases phrases with
  | nil => exact hrest
  | cons phrase others => exact ends_cons (by decide) _

theorem words_commaText (hphrases : ∀ phrase ∈ phrases, phrase.Legible) (hrest : Ends rest) :
    Lexer.words (commaText phrases ++ rest) = commaWords phrases ++ Lexer.words rest := by
  induction phrases with
  | nil => rfl
  | cons phrase others ih =>
    obtain ⟨hphrase, hothers⟩ := forall_mem_cons.1 hphrases
    simp only [commaText, commaWords, append_assoc, cons_append]
    rw [words_comma, words_blank, hphrase.words (ends_commaText hrest), ih hothers]

theorem words_listed (hphrases : ∀ phrase ∈ phrases, phrase.Legible) (hrest : Ends rest) :
    Lexer.words ((commaText phrases).drop 2 ++ rest) = (commaWords phrases).tail ++ Lexer.words rest := by
  cases phrases with
  | nil => rfl
  | cons phrase others =>
    obtain ⟨hphrase, hothers⟩ := forall_mem_cons.1 hphrases
    simp only [commaText, commaWords, drop_succ_cons, drop_zero, cons_append, tail_cons, append_assoc]
    rw [hphrase.words (ends_commaText hrest), words_commaText hothers hrest]

theorem legible_array (hitems : ∀ phrase ∈ phrases, phrase.Legible) : (array phrases).Legible := by
  refine ⟨fun {rest} hrest => ?_, ⟨'[', _, rfl, by decide, by decide⟩⟩
  simp only [text, words, append_assoc, cons_append, nil_append]
  rw [words_lbracket, words_listed hitems (ends_cons (by decide) _), words_rbracket]

/-! ### Operators -/

theorem legible_unary (op : UnaryOp) (hoperand : phrase.Legible) : (unary op phrase).Legible := by
  refine ⟨fun {rest} hrest => ?_, ?_⟩
  · obtain ⟨first, more, htext, hfirst⟩ := begins_append hoperand rest
    have hhead : ∀ c ∈ (phrase.text ++ rest).head?, c ≠ '=' ∧ c ≠ '>' := by
      rw [htext]
      rintro _ ⟨⟩
      exact hfirst
    rw [text, words, append_assoc, words_unary op hhead, hoperand.words hrest]
    rfl
  · cases op with
    | neg => exact ⟨'-', _, rfl, by decide, by decide⟩
    | not => exact ⟨'!', _, rfl, by decide, by decide⟩

theorem legible_binary (op : BinaryOp) (hleft : left.Legible) (hright : right.Legible) : (binary op left right).Legible := by
  refine ⟨fun {rest} hrest => ?_, begins_append hleft _⟩
  simp only [text, words, append_assoc, cons_append]
  rw [hleft.words (ends_cons (by decide) _), words_blank, words_binary, hright.words hrest]

theorem legible_ternary (mark : TernaryMark) (hcondition : condition.Legible) (hpositive : positive.Legible)
    (hnegative : negative.Legible) : (ternary mark condition positive negative).Legible := by
  refine ⟨fun {rest} hrest => ?_, begins_append hcondition _⟩
  simp only [text, words, append_assoc, cons_append]
  rw [hcondition.words (ends_cons (by decide) _), words_blank, words_ternary, hpositive.words (ends_cons (by decide) _),
    words_blank, words_colon, words_blank, hnegative.words hrest]

theorem legible_call (hcallee : callee.Legible) (harguments : ∀ phrase ∈ phrases, phrase.Legible) :
    (call callee phrases).Legible := by
  refine ⟨fun {rest} hrest => ?_, begins_append hcallee _⟩
  simp only [text, words, append_assoc, cons_append, nil_append]
  rw [hcallee.words (ends_cons (by decide) _), words_lparen, words_listed harguments (ends_cons (by decide) _), words_rparen]

theorem legible_get (hobject : object.Legible) (hname : IsIdentifier name) : (get object name).Legible := by
  refine ⟨fun {rest} hrest => ?_, begins_append hobject _⟩
  simp only [text, words, append_assoc, cons_append, nil_append]
  rw [hobject.words (ends_name hname), words_dot, words_identifier hname (Ends.of_head (by decide) hrest)]

theorem legible_index (hobject : object.Legible) (hposition : position.Legible) : (index object position).Legible := by
  refine ⟨fun {rest} hrest => ?_, begins_append hobject _⟩
  simp only [text, words, append_assoc, cons_append, nil_append]
  rw [hobject.words (ends_cons (by decide) _), words_lbracket, hposition.words (ends_cons (by decide) _), words_rbracket]

theorem legible_assign (assignment : AssignmentSign) (htarget : left.Legible) (hvalue : value.Legible) :
    (assign left assignment value).Legible := by
  refine ⟨fun {rest} hrest => ?_, begins_append htarget _⟩
  simp only [text, words, append_assoc, cons_append]
  rw [htarget.words (ends_cons (by decide) _), words_blank, words_assignment, hvalue.words hrest]

theorem legible_set (hobject : object.Legible) (hname : IsIdentifier name) (hvalue : value.Legible) :
    (set object name value).Legible := by
  refine ⟨fun {rest} hrest => ?_, begins_append hobject _⟩
  simp only [text, words, append_assoc, cons_append]
  rw [hobject.words (ends_name hname), words_dot, words_identifier hname (by rintro _ ⟨⟩; decide), words_blank, words_eq,
    hvalue.words hrest]

theorem legible_setIndex (hobject : object.Legible) (hposition : position.Legible) (hvalue : value.Legible) :
    (setIndex object position value).Legible := by
  refine ⟨fun {rest} hrest => ?_, begins_append hobject _⟩
  simp only [text, words, append_assoc, cons_append]
  rw [hobject.words (ends_cons (by decide) _), words_lbracket, hposition.words (ends_cons (by decide) _), words_rbracket,
    words_blank, words_eq, hvalue.words hrest]

end

end NanScript.Grammar.Phrase
