import Mathlib.Data.List.Induction
import Mathlib.Data.Nat.Digits.Defs
import NanScript.Proofs.Lexeme
import NanScript.Token.Literal

/-!
# Integer literals

An integer is written with digits in one of three radixes, of which two are told by a mark behind a zero (`Spells`). The scanner
finds the mark by looking ahead and the decoder by looking at the first two characters; they agree on every text. What is
denoted is the sum of the digits by their places, `number`.
-/

namespace NanScript

open List

namespace Literal

open Lexer

/-- Where a digit stands among all digits, whichever its case. -/
def digit (c : Char) : Nat := "0123456789abcdef".toList.idxOf c.toLower

/-- The number that digits stand for in a radix. -/
def number (radix : Nat) (digits : List Char) : Nat := Nat.ofDigits radix (digits.reverse.map digit)

/-- The texts that an integer is written with, their radixes and their digits. -/
inductive Spells : List Char → Nat → List Char → Prop
  | decimal {digits : List Char} : digits ≠ [] → (∀ c ∈ digits, c.isDigit = true) → Spells digits 10 digits
  | hexadecimal {mark : Char} {digits : List Char} : mark = 'x' ∨ mark = 'X' → digits ≠ [] →
      (∀ c ∈ digits, isHexDigit c = true) → Spells ('0' :: mark :: digits) 16 digits
  | binary {mark : Char} {digits : List Char} : mark = 'b' ∨ mark = 'B' → digits ≠ [] →
      (∀ c ∈ digits, isBinaryDigit c = true) → Spells ('0' :: mark :: digits) 2 digits

/-! ### Digits -/

variable {radix : Nat} {text digits : List Char} {c : Char}

theorem number_concat (c : Char) : number radix (digits ++ [c]) = number radix digits * radix + digit c := by
  rw [number, reverse_append, reverse_singleton, singleton_append, map_cons, Nat.ofDigits_cons, Nat.add_comm,
    Nat.mul_comm]
  rfl

theorem digitValue_eq (hc : isHexDigit c = true) : Binary64.digitsValue.digitValue c = digit c := by
  have hall : ∀ code < 128, isHexDigit (Char.ofNat code) = true →
      Binary64.digitsValue.digitValue (Char.ofNat code) = digit (Char.ofNat code) := by decide
  have hsame := hall c.toNat (Scanner.narrow_of_isHexDigit hc)
  rw [Char.ofNat_toNat] at hsame
  exact hsame hc

theorem digitsValue_eq (hdigits : ∀ c ∈ digits, isHexDigit c = true) :
    Binary64.digitsValue radix digits = number radix digits := by
  induction digits using reverseRecOn with
  | nil => rfl
  | append_singleton digits c ih =>
    obtain ⟨hdigits, hc⟩ := forall_mem_append.1 hdigits
    rw [number_concat, ← ih hdigits, ← digitValue_eq (hc c mem_cons_self), Binary64.digitsValue, foldl_append]
    rfl

theorem isHexDigit_of_isDigit (hc : c.isDigit = true) : isHexDigit c = true := by
  rw [isHexDigit, hc]
  rfl

theorem isHexDigit_of_isBinaryDigit (hc : isBinaryDigit c = true) : isHexDigit c = true := by
  rw [isBinaryDigit, Bool.or_eq_true, beq_iff_eq, beq_iff_eq] at hc
  rcases hc with rfl | rfl <;> decide

theorem radixDigits_digits (hdigits : ∀ c ∈ digits, c.isDigit = true) : radixDigits digits = (10, digits) := by
  unfold radixDigits
  split
  all_goals first
    | rfl
    | exact absurd (hdigits _ (mem_cons_of_mem _ mem_cons_self)) (by decide)

/-! ### Spellings -/

theorem Spells.integer? (hspells : Spells text radix digits) : integer? (String.ofList text) =
    if number radix digits < 0x8000000000000000 then some (number radix digits) else none := by
  have hvalue : radixDigits text = (radix, digits) ∧ ∀ c ∈ digits, isHexDigit c = true := by
    cases hspells with
    | decimal _ hdigits => exact ⟨radixDigits_digits hdigits, fun c hc => isHexDigit_of_isDigit (hdigits c hc)⟩
    | hexadecimal hmark _ hdigits => exact ⟨by rcases hmark with rfl | rfl <;> rfl, hdigits⟩
    | binary hmark _ hdigits =>
      exact ⟨by rcases hmark with rfl | rfl <;> rfl, fun c hc => isHexDigit_of_isBinaryDigit (hdigits c hc)⟩
  rw [Literal.integer?, String.toList_ofList, hvalue.1, ← digitsValue_eq hvalue.2]
  rfl

theorem Spells.cuts (hspells : Spells text radix digits) : Cuts text .number [] := by
  cases hspells with
  | decimal hnonempty hdigits => exact .whole hnonempty hdigits nofun nofun
  | hexadecimal hmark hnonempty hdigits => exact .radix hnonempty (by rwa [isRadixDigit, if_pos hmark]) nofun
  | binary hmark hnonempty hdigits =>
    refine .radix hnonempty ?_ nofun
    rcases hmark with rfl | rfl <;> exact hdigits

theorem exists_spells {rest : List Char} (hcuts : Cuts text .number rest) : ∃ radix digits, Spells text radix digits := by
  generalize hkind : TokenKind.number = kind at hcuts
  cases hcuts with
  | @radix mark digits _ hnonempty hdigits _ =>
    unfold isRadixDigit at hdigits
    split at hdigits
    · next hmark => exact ⟨16, digits, .hexadecimal hmark hnonempty hdigits⟩
    · split at hdigits
      · next hmark => exact ⟨2, digits, .binary hmark hnonempty hdigits⟩
      · obtain ⟨c, hc⟩ := exists_mem_of_ne_nil _ hnonempty
        exact absurd (hdigits c hc) Bool.false_ne_true
  | whole hnonempty hdigits _ _ => exact ⟨10, text, .decimal hnonempty hdigits⟩
  | name _ _ => exact absurd (hkind ▸ TokenKind.mem_of_ofKeyword? _) (by decide)
  | sign hsign _ =>
    subst hkind
    exact absurd hsign (by decide)
  | _ => contradiction

/-- The digits of a number in a radix are digits of that radix and stand for the number. -/
theorem number_toDigits (hradix : 1 < radix ∧ radix ≤ 16) {property : Char → Bool}
    (hproperty : ∀ value < radix, property value.digitChar = true) (value : Nat) :
    Nat.toDigits radix value ≠ [] ∧ (∀ c ∈ Nat.toDigits radix value, property c = true) ∧
      number radix (Nat.toDigits radix value) = value := by
  have hdigit : ∀ value < 16, digit value.digitChar = value := by decide
  induction value using Nat.strong_induction_on with
  | _ value ih =>
    rw [Nat.toDigits_eq_if hradix.1]
    split
    · next hsmall =>
      refine ⟨cons_ne_nil _ _, forall_mem_singleton.2 (hproperty value hsmall), ?_⟩
      exact Nat.ofDigits_singleton.trans (hdigit value (by omega))
    · next hlarge =>
      have hlast : value % radix < radix := Nat.mod_lt _ (by omega)
      obtain ⟨-, hdigits, hnumber⟩ := ih (value / radix) (Nat.div_lt_self (by omega) hradix.1)
      refine ⟨by simp, forall_mem_append.2 ⟨hdigits, forall_mem_singleton.2 (hproperty _ hlast)⟩, ?_⟩
      rw [number_concat, hnumber, hdigit _ (by omega), Nat.div_add_mod']

end Literal

open Literal

/-- Every number token is an integer in one of the three spellings, and decoding gives that integer if it is below the bound of
integers and nothing if it is not. Conversely every spelling of an integer is one number token and nothing else, and every
integer has a spelling in each radix. -/
theorem integer_literals_denote :
    (∀ source : String, ∀ token ∈ tokens source, token.kind = .number → ∃ radix digits, Spells token.lexeme.toList radix digits ∧
      Literal.integer? token.lexeme =
        if number radix digits < 0x8000000000000000 then some (number radix digits) else none) ∧
    (∀ text radix digits, Spells text radix digits →
      (tokens (String.ofList text)).map Token.spelling = [(.number, String.ofList text), (.eof, "")] ∧
      Literal.integer? (String.ofList text) =
        if number radix digits < 0x8000000000000000 then some (number radix digits) else none) ∧
    ∀ value, (∀ radix ∈ [10, 16, 2], number radix (Nat.toDigits radix value) = value) ∧
      Spells (Nat.toDigits 10 value) 10 (Nat.toDigits 10 value) ∧
      (∀ mark ∈ ['x', 'X'], Spells ('0' :: mark :: Nat.toDigits 16 value) 16 (Nat.toDigits 16 value)) ∧
      ∀ mark ∈ ['b', 'B'], Spells ('0' :: mark :: Nat.toDigits 2 value) 2 (Nat.toDigits 2 value) := by
  refine ⟨fun source token htoken hkind => ?_, fun text radix digits hspells => ⟨?_, hspells.integer?⟩, fun value => ?_⟩
  · rw [tokens_eq] at htoken
    obtain ⟨rest, hcuts⟩ := Lexer.cuts_of_mem_tokens htoken (by rw [hkind]; decide) (by rw [hkind]; decide)
    obtain ⟨radix, digits, hspells⟩ := exists_spells (hkind ▸ hcuts)
    have hvalue := hspells.integer?
    rw [String.ofList_toList] at hvalue
    exact ⟨radix, digits, hspells, hvalue⟩
  · have hcuts := hspells.cuts.spellings
    rw [List.append_nil, Lexer.spellings_nil] at hcuts
    rw [tokens_eq, Cursor.ofText, String.toList_ofList]
    exact hcuts
  · obtain ⟨hten, htenDigits, htenNumber⟩ := @number_toDigits 10 (by decide) Char.isDigit (by decide) value
    obtain ⟨hhex, hhexDigits, hhexNumber⟩ := @number_toDigits 16 (by decide) Lexer.isHexDigit (by decide) value
    obtain ⟨htwo, htwoDigits, htwoNumber⟩ := @number_toDigits 2 (by decide) Lexer.isBinaryDigit (by decide) value
    refine ⟨by simp [htenNumber, hhexNumber, htwoNumber], .decimal hten htenDigits, fun mark hmark => ?_, fun mark hmark => ?_⟩
    · exact .hexadecimal (by simpa using hmark) hhex hhexDigits
    · exact .binary (by simpa using hmark) htwo htwoDigits

end NanScript
