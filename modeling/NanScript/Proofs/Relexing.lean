import NanScript.Proofs.Printing.Lexemes
import NanScript.Proofs.Tiling

/-!
# Tokens survive another scan

Every token that is no error is a lexeme in front of what follows it (`Lexer.Cuts`). A blank may follow any lexeme, so the lexemes
of a text with blanks between them are read as the same tokens, and each of them alone as that one token.
-/

namespace NanScript

namespace Lexer

def isDigitOf : Nat → Char → Bool
  | 16 => isHexDigit
  | 2 => isBinaryDigit
  | _ => Char.isDigit

theorem uniform_isDigitOf (radix : Nat) : Uniform (isDigitOf radix) := by
  unfold isDigitOf
  split
  · exact uniform_of_false fun _ => Scanner.narrow_of_isHexDigit
  · exact uniform_of_false fun _ => Scanner.narrow_of_isBinaryDigit
  · exact Scanner.uniform_isDigit

theorem isDigitOf_zero (radix : Nat) : isDigitOf radix '\x00' = false := by
  unfold isDigitOf
  split <;> decide

/-- What a scanner sees where a token stops. -/
theorem Stops.current {holds : Char → Bool} {total : Nat} {cursor : Cursor} {scanner : Scanner} (hstops : Stops holds cursor.rest)
    (huniform : Uniform holds) (hzero : holds '\x00' = false) (hstands : scanner.Stands total cursor) :
    holds scanner.current = false := by
  rw [hstands.holds_current huniform]
  cases hrest : cursor.rest with
  | nil => exact hzero
  | cons c rest => exact hstops c (by rw [hrest]; rfl)

theorem Cuts.identifier_stops {text rest : List Char} (hcuts : Cuts text .identifier rest) : Stops isNamePart rest := by
  generalize hkind : TokenKind.identifier = kind at hcuts
  cases hcuts with
  | name _ hstops => exact hstops
  | sign hsign _ =>
    subst hkind
    exact absurd hsign (by decide)
  | _ => contradiction

theorem isRadixDigit_eq {mark digit : Char} (hdigit : isRadixDigit mark digit = true) (digits : List Char) :
    isRadixDigit mark = isDigitOf (Literal.radixDigits ('0' :: mark :: digits)).1 := by
  unfold isRadixDigit at hdigit ⊢
  split
  · next hhex => rcases hhex with rfl | rfl <;> rfl
  · next hhex =>
    rw [if_neg hhex] at hdigit
    split
    · next hbinary => rcases hbinary with rfl | rfl <;> rfl
    · next hbinary =>
      rw [if_neg hbinary] at hdigit
      contradiction

theorem Cuts.number_stops {text rest : List Char} (hcuts : Cuts text .number rest) :
    Stops (isDigitOf (Literal.radixDigits text).1) rest := by
  generalize hkind : TokenKind.number = kind at hcuts
  cases hcuts with
  | name _ _ => exact absurd (hkind ▸ TokenKind.mem_of_ofKeyword? _) (by decide)
  | radix hnonempty hdigits hstops =>
    obtain ⟨digit, others, rfl⟩ := List.exists_cons_of_ne_nil hnonempty
    exact isRadixDigit_eq (hdigits digit List.mem_cons_self) _ ▸ hstops
  | whole _ hdigits hstops _ =>
    rw [Literal.radixDigits_digits hdigits]
    exact hstops
  | sign hsign _ =>
    subst hkind
    exact absurd hsign (by decide)
  | _ => contradiction

theorem spellings_intercalate {cursor : Cursor} (hfine : ∀ token ∈ cursor.tokens, token.kind ≠ .error) :
    spellings ([' '].intercalate (cursor.tokens.map (·.lexeme.toList))) = cursor.tokens.map Token.spelling := by
  fun_induction Cursor.tokens cursor with
  | case1 cursor start hread =>
    have hscan : start.scan.1.spelling = (.eof, "") := by
      rw [Cursor.scan, hread]
      rfl
    have hlexeme : start.scan.1.lexeme = "" := congrArg Prod.snd hscan
    rw [List.map_singleton, List.map_singleton, hscan, hlexeme]
    exact spellings_nil
  | case2 cursor start hunread ih =>
    obtain ⟨hfirst, hlater⟩ := List.forall_mem_cons.1 hfine
    obtain ⟨second, others, htokens⟩ : ∃ second others, start.scan.2.tokens = second :: others := by
      obtain ⟨more, last, htokens, -⟩ := start.scan.2.tokens_framed
      exact List.exists_cons_of_ne_nil (by simp [htokens])
    have hcuts : Cuts start.scan.1.lexeme.toList start.scan.1.kind
        (' ' :: [' '].intercalate (start.scan.2.tokens.map (·.lexeme.toList))) :=
      (@cuts_next cursor hunread hfirst).blank (by rintro _ ⟨⟩; rfl)
    have hjoin := hcuts.spellings
    rw [spellings_blank, ih hlater, String.ofList_toList] at hjoin
    rw [List.map_cons, List.map_cons]
    rw [htokens, List.map_cons] at hjoin ⊢
    rw [List.intercalate_cons_cons, List.append_assoc]
    exact hjoin

end Lexer

/-- Where no token of a text is an error, its lexemes with blanks between them are read as the same tokens, and each alone as that
one token. An identifier is not followed by a character that could go on with it, nor a number by a digit of its radix. -/
theorem tokens_survive_relexing {source : String} (hfine : ∀ token ∈ tokens source, token.kind ≠ .error) :
    (tokens (" ".intercalate ((tokens source).map Token.lexeme))).map Token.spelling = (tokens source).map Token.spelling ∧
    (∀ token ∈ tokens source, token.kind ≠ .eof → (tokens token.lexeme).map Token.spelling = [token.spelling, (.eof, "")]) ∧
    ∀ index scanner token behind, (Scanner.ofText source).after? index = some scanner → scanner.next? = some (token, behind) →
      (token.kind = .identifier → Lexer.isNamePart behind.current = false) ∧
      (token.kind = .number → Lexer.isDigitOf (Literal.radixDigits token.lexeme.toList).1 behind.current = false) := by
  simp only [tokens_eq] at hfine ⊢
  refine ⟨?_, fun token htoken hunread => ?_, fun index scanner token behind hafter hnext => ?_⟩
  · have hjoin := Lexer.spellings_intercalate hfine
    rw [Cursor.ofText, String.toList_intercalate, List.map_map]
    exact hjoin
  · obtain ⟨rest, hcuts⟩ := Lexer.cuts_of_mem_tokens htoken (hfine token htoken) hunread
    have halone := (hcuts.blank (show ∀ c ∈ ([] : List Char).head?, c = ' ' by simp)).spellings
    rw [List.append_nil, Lexer.spellings_nil, String.ofList_toList] at halone
    exact halone
  · obtain ⟨place, hplace, hstands⟩ := (Scanner.stands_ofText source).after? index
    obtain rfl := Option.some.inj (hafter.symm.trans hplace)
    obtain ⟨stop, hstop, hbehind⟩ := hstands.next?
    obtain ⟨rfl, rfl⟩ := Prod.mk.inj (Option.some.inj (hnext.symm.trans hstop))
    constructor <;> intro hkind
    · have hcuts := Lexer.cuts_next (mt Cursor.scan_kind_eof (by rw [← Cursor.next, hkind]; decide)) (by rw [hkind]; decide)
      rw [hkind] at hcuts
      exact hcuts.identifier_stops.current (uniform_of_false fun _ => Scanner.narrow_of_isNamePart) (by decide) hbehind
    · have hcuts := Lexer.cuts_next (mt Cursor.scan_kind_eof (by rw [← Cursor.next, hkind]; decide)) (by rw [hkind]; decide)
      rw [hkind] at hcuts
      exact hcuts.number_stops.current (Lexer.uniform_isDigitOf _) (Lexer.isDigitOf_zero _) hbehind

/-- A text without a blank whose lexemes stand as close as they can. -/
def denseSource : String := "0x1Fg-->b/**/0b12.5.x/\"\\\"//\"0x!=="

theorem tokens_survive_relexing_dense : (∀ token ∈ tokens denseSource, token.kind ≠ .error) ∧ (tokens denseSource).length = 16 ∧
    (tokens (" ".intercalate ((tokens denseSource).map Token.lexeme))).map Token.spelling =
      (tokens denseSource).map Token.spelling := by
  have hfine : ∀ token ∈ tokens denseSource, token.kind ≠ .error := by decide +kernel
  exact ⟨hfine, by decide +kernel, (tokens_survive_relexing hfine).1⟩

end NanScript
