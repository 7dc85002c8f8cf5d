import NanScript.Proofs.Scanner

/-!
# The tokens of a text

Scanning ends with one end mark, and there is none before: `tokens_framed`.
-/

namespace NanScript

/-- A list of tokens with one end mark, at its end. -/
def FramedTokens (tokens : List Token) : Prop :=
  ∃ more last, tokens = more ++ [last] ∧ last.kind = .eof ∧ ∀ token ∈ more, token.kind ≠ .eof

theorem TokenKind.mem_of_ofKeyword? (text : String) : (ofKeyword? text).getD .identifier ∈ .identifier :: keywords := by
  cases hfound : ofKeyword? text with
  | none => exact List.mem_cons_self
  | some kind => exact List.mem_cons_of_mem _ (List.mem_of_find?_eq_some hfound)

namespace Lexer

theorem cutNumber_ne_eof (first : Char) (rest : List Char) : (cutNumber first rest).2 ≠ .eof := by
  unfold cutNumber cutNumber.decimal
  repeat' split
  all_goals simp

theorem cutPair_ne_eof {second : Char} {pair single : Verdict} (hpair : pair ≠ .ok .eof) (hsingle : single ≠ .ok .eof)
    (rest : List Char) : (cutPair second pair single rest).2 ≠ .ok .eof := by
  unfold cutPair
  repeat' split
  all_goals assumption

theorem cut_ne_eof (first : Char) (rest : List Char) : (cut first rest).2 ≠ .ok .eof := by
  unfold cut
  split
  · intro hend
    exact absurd (Except.ok.inj hend ▸ TokenKind.mem_of_ofKeyword? _) (by decide)
  · split
    · simpa using cutNumber_ne_eof first rest
    · split
      all_goals first
        | exact cutPair_ne_eof (by simp) (by simp) rest
        | simp
      · split <;> simp
      · split
        · simp
        · exact cutPair_ne_eof (by simp) (by simp) _

end Lexer

namespace Cursor

open Lexer

theorem scan_kind_ne_eof {cursor : Cursor} (hunread : cursor.rest ≠ []) : cursor.scan.1.kind ≠ .eof := by
  unfold scan
  split
  · contradiction
  · next first more _ =>
    have hverdict := cut_ne_eof first more
    simp only [Verdict.token]
    split
    · rename_i kind hkind
      rintro rfl
      exact hverdict hkind
    · simp

theorem scan_kind_eof {cursor : Cursor} (hread : cursor.rest = []) : cursor.scan.1.kind = .eof := by
  unfold scan
  rw [hread]

theorem tokens_framed (cursor : Cursor) : FramedTokens cursor.tokens := by
  fun_induction tokens cursor with
  | case1 cursor start hread => exact ⟨[], start.scan.1, rfl, scan_kind_eof hread, by simp⟩
  | case2 cursor start hunread ih =>
    obtain ⟨more, last, htokens, hlast, hmore⟩ := ih
    refine ⟨start.scan.1 :: more, last, by rw [htokens]; rfl, hlast, ?_⟩
    exact List.forall_mem_cons.2 ⟨scan_kind_ne_eof hunread, hmore⟩

end Cursor

namespace Lexer

theorem next?_eq {lexer : Lexer} {token : Token} {stop : Scanner} (hfinished : lexer.finished = false)
    (hnext : lexer.scanner.next? = some (token, stop)) : lexer.next? = some (some token, { scanner := stop, finished := token.kind = .eof }) := by
  rw [next?, if_neg (by rw [hfinished]; decide), hnext]
  rfl

theorem collect?_finished {lexer : Lexer} (hfinished : lexer.finished = true) : lexer.collect? = some ([], lexer) := by
  have hnext : lexer.next? = some (none, lexer) := if_pos hfinished
  rw [collect?]
  split <;> simp_all

theorem collect?_of_next? {lexer behind : Lexer} {token : Token} (hnext : lexer.next? = some (some token, behind)) :
    lexer.collect? = behind.collect?.map fun found => (token :: found.1, found.2) := by
  rw [collect?]
  split <;> simp_all

theorem collect?_eq {total : Nat} {cursor : Cursor} {lexer : Lexer} (hstands : lexer.scanner.Stands total cursor)
    (hfinished : lexer.finished = false) : ∃ last, lexer.collect? = some (cursor.tokens, last) ∧ last.finished = true := by
  induction hlength : cursor.rest.length using Nat.strongRecOn generalizing cursor lexer with
  | ind length ih =>
    obtain ⟨stop, hnext, hstop⟩ := hstands.next?
    rw [Cursor.tokens, collect?_of_next? (next?_eq hfinished hnext)]
    split
    · next hread =>
      have hfinal : (cursor.next.1.kind = .eof : Bool) = true := decide_eq_true (Cursor.scan_kind_eof hread)
      rw [collect?_finished hfinal]
      exact ⟨_, rfl, hfinal⟩
    · next hunread =>
      have hgoesOn : (cursor.next.1.kind = .eof : Bool) = false := decide_eq_false (Cursor.scan_kind_ne_eof hunread)
      have hless := Nat.lt_of_lt_of_le (Cursor.length_rest_scan_lt hunread) (length_skip_le .blank cursor.rest)
      obtain ⟨last, hcollect, hlast⟩ := @ih _ (hlength ▸ hless) cursor.next.2 ⟨stop, cursor.next.1.kind = .eof⟩ hstop hgoesOn rfl
      rw [hcollect]
      exact ⟨last, rfl, hlast⟩

end Lexer

/-- The tokens of a text are those of its characters. -/
theorem tokens_eq (source : String) : tokens source = (Cursor.ofText source).tokens := by
  obtain ⟨last, hcollect, -⟩ := @Lexer.collect?_eq _ _ (.ofText source) (Scanner.stands_ofText source) rfl
  rw [tokens, hcollect]
  rfl

/-- The tokens of a text end with one end mark, and there is none before. -/
theorem tokens_framed (source : String) : FramedTokens (tokens source) := by
  rw [tokens_eq]
  exact Cursor.tokens_framed _

end NanScript
