import NanScript.Proofs.Lexeme
import NanScript.Token.Literal

/-!
# String literals

A text is written between quotes with a backslash in front of each quote and each backslash; characters that have a letter of
their own may be written with it (`Writes`). Scanner and decoder agree on what such a body is, `Lexer.StringBody`: the scanner ends
a literal where the decoder has come to the end of a body, never inside of an escape.
-/

namespace NanScript

namespace Lexer

/-- The body of a string literal that denotes a text. -/
def escapeBody : List Char → List Char
  | [] => []
  | c :: rest => if c = '"' ∨ c = '\\' then '\\' :: c :: escapeBody rest else c :: escapeBody rest

/-- The string literal that denotes a text. -/
def quote (text : List Char) : List Char := '"' :: escapeBody text ++ ['"']

end Lexer

namespace Literal

open Lexer

/-- The letters that stand for a character behind a backslash. -/
def letters : List (Char × Char) := [('n', '\n'), ('r', '\r'), ('t', '\t'), ('0', '\x00')]

/-- The ways to write a text. -/
inductive Writes : List Char → List Char → Prop
  | nil : Writes [] []
  | plain {c : Char} {text body : List Char} : c ≠ '"' → c ≠ '\\' → Writes text body → Writes (c :: text) (c :: body)
  | mark {c : Char} {text body : List Char} : c = '"' ∨ c = '\\' → Writes text body → Writes (c :: text) ('\\' :: c :: body)
  | letter {letter c : Char} {text body : List Char} : (letter, c) ∈ letters → Writes text body →
      Writes (c :: text) ('\\' :: letter :: body)

theorem writes_escapeBody (text : List Char) : Writes text (escapeBody text) := by
  induction text with
  | nil => exact .nil
  | cons c rest ih =>
    unfold escapeBody
    split
    · next hmark => exact .mark hmark ih
    · next hplain => exact .plain (fun hc => hplain (.inl hc)) (fun hc => hplain (.inr hc)) ih

theorem unescapeBody_of_turn {body given rest : List Char} (hturn : decodeOne? body = some (given, rest)) :
    unescapeBody body = given ++ unescapeBody rest := by
  rw [unescapeBody]
  split
  · next hnone => rw [hturn] at hnone; contradiction
  · next hsome => rw [hturn] at hsome; cases hsome; rfl

theorem decodeOne?_plain {c : Char} (hc : c ≠ '\\') (rest : List Char) : decodeOne? (c :: rest) = some ([c], rest) := by
  rw [decodeOne?]
  · exact fun hbackslash => absurd hbackslash hc
  · exact fun _ _ hbackslash => absurd hbackslash hc

namespace Writes

variable {text body : List Char}

theorem stringBody (hwrites : Writes text body) : StringBody body := by
  induction hwrites with
  | nil => exact .nil
  | plain hquote hbackslash _ ih => exact .plain hquote hbackslash ih
  | mark _ _ ih | letter _ _ ih => exact .escape ih

theorem unescapeBody (hwrites : Writes text body) : unescapeBody body = text := by
  induction hwrites with
  | nil => rw [Literal.unescapeBody]; rfl
  | plain _ hbackslash _ ih =>
    rw [unescapeBody_of_turn (decodeOne?_plain hbackslash _), ih]
    rfl
  | mark hmark _ ih => rcases hmark with rfl | rfl <;> rw [unescapeBody_of_turn rfl, ih] <;> rfl
  | letter hletter _ ih =>
    simp only [letters, List.mem_cons, Prod.mk.injEq, List.not_mem_nil, or_false] at hletter
    rcases hletter with ⟨rfl, rfl⟩ | ⟨rfl, rfl⟩ | ⟨rfl, rfl⟩ | ⟨rfl, rfl⟩ <;> rw [unescapeBody_of_turn rfl, ih] <;> rfl

end Writes

theorem unquote_quotes (body : List Char) : unquote ('"' :: (body ++ ['"'])) = body := by
  rw [unquote, if_pos (by simp), List.dropLast_concat]

theorem unescape_quote (text : String) : unescape (String.ofList (quote text.toList)) = text := by
  rw [unescape, String.toList_ofList, quote, List.cons_append, unquote_quotes, (writes_escapeBody _).unescapeBody,
    String.ofList_toList]

/-- The places that the decoding of a body comes by, turn by turn. -/
inductive Meets : List Char → List Char → Prop
  | here {body : List Char} : Meets body body
  | turn {body given rest place : List Char} (hturn : decodeOne? body = some (given, rest)) (hmeets : Meets rest place) :
      Meets body place

/-- What is decoded from a place on is the last part of what is decoded. -/
theorem Meets.decoded {body place : List Char} (hmeets : Meets body place) :
    ∃ decoded, unescapeBody body = decoded ++ unescapeBody place := by
  induction hmeets with
  | here => exact ⟨[], rfl⟩
  | turn hturn _ ih =>
    obtain ⟨decoded, hdecoded⟩ := ih
    exact ⟨_ ++ decoded, by rw [unescapeBody_of_turn hturn, hdecoded, List.append_assoc]⟩

/-- In the body of a string, decoding never meets a backslash at the end, nor a quote. -/
theorem Meets.fine {body place : List Char} (hmeets : Meets body place) (hbody : StringBody body) :
    place ≠ ['\\'] ∧ place.head? ≠ some '"' := by
  induction hmeets with
  | here =>
    cases hbody with
    | nil => exact ⟨nofun, nofun⟩
    | plain hquote hbackslash _ => exact ⟨fun hend => hbackslash (List.cons.inj hend).1, fun hhead => hquote (Option.some.inj hhead)⟩
    | escape _ => exact ⟨nofun, nofun⟩
  | turn hturn _ ih =>
    cases hbody with
    | nil => cases hturn
    | plain _ hbackslash hrest =>
      rw [decodeOne?_plain hbackslash] at hturn
      cases hturn
      exact ih hrest
    | escape hrest =>
      cases hturn
      exact ih hrest

end Literal

/-- However a text is written between quotes, that is one string token and nothing else, and it denotes the text; every text can
be written. Conversely a string token of any source has a quote at either end, which decoding takes off, and in between decoding
never meets a backslash with nothing behind it, nor a quote without a backslash in front. -/
theorem string_literals_denote :
    (∀ (text : String) (body : List Char), Literal.Writes text.toList body →
      (tokens (String.ofList ('"' :: (body ++ ['"'])))).map Token.spelling =
          [(.string, String.ofList ('"' :: (body ++ ['"']))), (.eof, "")] ∧
        Literal.unescape (String.ofList ('"' :: (body ++ ['"']))) = text) ∧
    (∀ text : String, Literal.Writes text.toList (Lexer.escapeBody text.toList)) ∧
    ∀ (source : String), ∀ token ∈ tokens source, token.kind = .string →
      ∃ body, token.lexeme.toList = '"' :: (body ++ ['"']) ∧ Literal.unquote token.lexeme.toList = body ∧
        ∀ place, Literal.Meets body place → place ≠ ['\\'] ∧ place.head? ≠ some '"' ∧
          ∃ decoded, Literal.unescapeBody body = decoded ++ Literal.unescapeBody place := by
  refine ⟨fun text body hwrites => ⟨?_, ?_⟩, fun text => Literal.writes_escapeBody _, fun source token htoken hkind => ?_⟩
  · have hcuts := (@Lexer.Cuts.string body [] hwrites.stringBody).spellings
    rw [List.append_nil, Lexer.spellings_nil] at hcuts
    rw [tokens_eq, Cursor.ofText, String.toList_ofList]
    exact hcuts
  · rw [Literal.unescape, String.toList_ofList, Literal.unquote_quotes, hwrites.unescapeBody, String.ofList_toList]
  · rw [tokens_eq] at htoken
    obtain ⟨rest, hcuts⟩ := Lexer.cuts_of_mem_tokens htoken (by rw [hkind]; decide) (by rw [hkind]; decide)
    obtain ⟨body, hlexeme, hbody⟩ := (hkind ▸ hcuts).string_body
    refine ⟨body, hlexeme, hlexeme ▸ Literal.unquote_quotes body, fun place hmeets => ?_⟩
    obtain ⟨hend, hquote⟩ := hmeets.fine hbody
    exact ⟨hend, hquote, hmeets.decoded⟩

end NanScript
