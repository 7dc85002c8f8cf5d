import NanScript.Proofs.Cursor

/-!
# The scanner reads characters

A character below 128 is one byte; the bytes of any other are all 128 or more, and the first of them is no continuation. So the
scanner, which looks for bytes below 128 only, finds what a cursor over the characters finds. It may be inside of a character for
a while, behind a backslash or a byte that it does not expect, but never when it cuts out the text of a token: it reads the same
tokens, and comes by the same places (`Scanner.Stands`).
-/

namespace NanScript

open Text

/-! ### The bytes of characters -/

/-- The bytes of some characters. -/
def bytesOf (text : List Char) : List UInt8 := text.flatMap String.utf8EncodeChar

theorem bytesOf_cons (c : Char) (rest : List Char) : bytesOf (c :: rest) = String.utf8EncodeChar c ++ bytesOf rest :=
  List.flatMap_cons

theorem bytesOf_append (front back : List Char) : bytesOf (front ++ back) = bytesOf front ++ bytesOf back :=
  List.flatMap_append

theorem toList_toByteArray (text : List Char) : (String.ofList text).toByteArray.data.toList = bytesOf text := by
  simp [String.toByteArray_ofList, List.utf8Encode, bytesOf]

theorem toNat_ofUInt8 (byte : UInt8) : (Char.ofUInt8 byte).toNat = byte.toNat := rfl

theorem encode_narrow {c : Char} (hc : c.toNat < 128) : ∃ byte, String.utf8EncodeChar c = [byte] ∧ Char.ofUInt8 byte = c := by
  refine ⟨UInt8.ofNat c.toNat, ?_, ?_⟩
  · have hval : c.val.toNat ≤ 127 := Nat.le_of_lt_succ hc
    simp only [String.utf8EncodeChar, hval, if_true]
    rfl
  · refine Char.ext (UInt32.toNat_inj.1 ?_)
    show (UInt8.ofNat c.toNat).toNat = c.toNat
    rw [UInt8.toNat_ofNat']
    omega

theorem isContinuation_iff (byte : UInt8) : isContinuation byte = true ↔ 128 ≤ byte.toNat ∧ byte.toNat ≤ 191 := by
  rw [isContinuation, Bool.and_eq_true, decide_eq_true_iff, decide_eq_true_iff, UInt8.le_iff_toNat_le, UInt8.le_iff_toNat_le]
  rfl

theorem encode_wide {c : Char} (hc : 128 ≤ c.toNat) : ∃ lead more, String.utf8EncodeChar c = lead :: more ∧
    191 < lead.toNat ∧ ∀ byte ∈ more, isContinuation byte = true := by
  have hval : ¬ c.val.toNat ≤ 127 := Nat.not_le.2 hc
  have hlead {number : Nat} (hnumber : number < 64) : 191 < (UInt8.ofNat (number + 192)).toNat := by
    rw [UInt8.toNat_ofNat']
    omega
  have hmore (number : Nat) : isContinuation (UInt8.ofNat (number % 64 + 128)) = true := by
    rw [isContinuation_iff, UInt8.toNat_ofNat']
    omega
  simp only [String.utf8EncodeChar, if_neg hval]
  split
  · exact ⟨_, _, rfl, hlead (by omega), List.forall_mem_cons.2 ⟨hmore _, nofun⟩⟩
  · split
    · exact ⟨_, _, rfl, @hlead (c.val.toNat / 4096 % 16 + 32) (by omega),
        List.forall_mem_cons.2 ⟨hmore _, List.forall_mem_cons.2 ⟨hmore _, nofun⟩⟩⟩
    · exact ⟨_, _, rfl, @hlead (c.val.toNat / 262144 % 8 + 48) (by omega),
        List.forall_mem_cons.2 ⟨hmore _, List.forall_mem_cons.2 ⟨hmore _, List.forall_mem_cons.2 ⟨hmore _, nofun⟩⟩⟩⟩

/-- A test that does not tell characters apart that are longer than one byte. -/
def Uniform (holds : Char → Bool) : Prop := ∀ c d : Char, 128 ≤ c.toNat → 128 ≤ d.toNat → holds c = holds d

/-- The bytes of a character pass a test that is uniform if the character does. -/
theorem holds_of_mem_encode {holds : Char → Bool} (huniform : Uniform holds) {c : Char} {byte : UInt8}
    (hbyte : byte ∈ String.utf8EncodeChar c) : holds (Char.ofUInt8 byte) = holds c := by
  by_cases hc : c.toNat < 128
  · obtain ⟨only, hencode, hsame⟩ := encode_narrow hc
    rw [hencode, List.mem_singleton] at hbyte
    rw [hbyte, hsame]
  · obtain ⟨lead, more, hencode, hlead, hmore⟩ := encode_wide (Nat.not_lt.1 hc)
    refine huniform _ _ ?_ (Nat.not_lt.1 hc)
    rw [toNat_ofUInt8]
    rw [hencode, List.mem_cons] at hbyte
    rcases hbyte with rfl | hbyte
    · omega
    · exact ((isContinuation_iff byte).1 (hmore byte hbyte)).1

/-- The bytes of a character: one that begins it, and continuations. -/
theorem encode_lead (c : Char) : ∃ lead more, String.utf8EncodeChar c = lead :: more ∧ ∀ byte ∈ more, isContinuation byte = true := by
  by_cases hc : c.toNat < 128
  · obtain ⟨byte, hencode, -⟩ := encode_narrow hc
    exact ⟨byte, [], hencode, nofun⟩
  · obtain ⟨lead, more, hencode, -, hmore⟩ := encode_wide (Nat.not_lt.1 hc)
    exact ⟨lead, more, hencode, hmore⟩

theorem encode_ne_nil (c : Char) : String.utf8EncodeChar c ≠ [] := by
  obtain ⟨lead, more, hencode, -⟩ := encode_lead c
  simp [hencode]

theorem dropWhile_bytesOf {holds : Char → Bool} (huniform : Uniform holds) (text : List Char) :
    (bytesOf text).dropWhile (fun byte => holds (Char.ofUInt8 byte)) = bytesOf (text.dropWhile holds) := by
  induction text with
  | nil => rfl
  | cons c rest ih =>
    rw [bytesOf_cons, List.dropWhile_cons]
    split
    · next hholds =>
      rw [List.dropWhile_append_of_pos fun byte hbyte => (holds_of_mem_encode huniform hbyte).trans hholds, ih]
    · next hholds =>
      obtain ⟨lead, more, hencode⟩ := List.exists_cons_of_ne_nil (encode_ne_nil c)
      have hlead := holds_of_mem_encode huniform (hencode ▸ List.mem_cons_self : lead ∈ String.utf8EncodeChar c)
      rw [bytesOf_cons, hencode, List.cons_append, List.dropWhile_cons, hlead, if_neg hholds]

theorem uniform_of_false {holds : Char → Bool} (hholds : ∀ c, holds c = true → c.toNat < 128) : Uniform holds := by
  have hfalse (c : Char) (hc : 128 ≤ c.toNat) : holds c = false := Bool.eq_false_iff.2 fun htrue => absurd (hholds c htrue) (by omega)
  intro c d hc hd
  rw [hfalse c hc, hfalse d hd]

/-! ### Places -/

namespace Scanner

open Lexer

/-- A scanner stands where a cursor does, in a text of some number of bytes. -/
structure Stands (total : Nat) (cursor : Cursor) (scanner : Scanner) : Prop where
  rest : scanner.rest = bytesOf cursor.rest
  line : scanner.line = cursor.line
  position : scanner.position + scanner.rest.length = total

variable {total line : Nat} {text front back : List Char} {c expected : Char} {start scanner stop : Scanner}

theorem peek_eq (scanner : Scanner) : scanner.peek = scanner.advance.current := by
  unfold peek advance current
  split <;> simp_all

namespace Stands

theorem current_cons (hstands : Stands total ⟨c :: text, line⟩ scanner) :
    ∃ byte ∈ String.utf8EncodeChar c, scanner.current = Char.ofUInt8 byte := by
  obtain ⟨lead, more, hencode⟩ := List.exists_cons_of_ne_nil (encode_ne_nil c)
  refine ⟨lead, hencode ▸ List.mem_cons_self, ?_⟩
  rw [current, hstands.rest, bytesOf_cons, hencode]
  rfl

/-- What a scanner sees of a character, as far as a uniform test can tell. -/
theorem holds_current {holds : Char → Bool} (huniform : Uniform holds) (hstands : Stands total ⟨text, line⟩ scanner) :
    holds scanner.current = holds (text.headD '\x00') := by
  cases text with
  | nil =>
    rw [current, hstands.rest]
    rfl
  | cons c text =>
    obtain ⟨byte, hbyte, hcurrent⟩ := hstands.current_cons
    rw [hcurrent, holds_of_mem_encode huniform hbyte]
    rfl

theorem current_eq_iff (hstands : Stands total ⟨text, line⟩ scanner) (hexpected : expected.toNat < 128) :
    scanner.current = expected ↔ text.headD '\x00' = expected := by
  have huniform : Uniform (· == expected) := uniform_of_false fun c hc => by rwa [eq_of_beq hc]
  have hholds := holds_current huniform hstands
  rw [← beq_iff_eq, ← beq_iff_eq (a := text.headD '\x00'), hholds]

theorem current_narrow (hstands : Stands total ⟨c :: text, line⟩ scanner) (hc : c.toNat < 128) : scanner.current = c :=
  (hstands.current_eq_iff hc).2 rfl

theorem of_current (hstands : Stands total ⟨text, line⟩ scanner) (hcurrent : scanner.current = c)
    (hc : c.toNat < 128 ∧ c ≠ '\x00') : ∃ rest, text = c :: rest := by
  have hhead := (hstands.current_eq_iff hc.1).1 hcurrent
  cases text with
  | nil => exact absurd hhead.symm hc.2
  | cons d rest => exact ⟨rest, congrArg (· :: rest) hhead⟩

theorem rest_eq_nil_iff (hstands : Stands total ⟨text, line⟩ scanner) : scanner.rest = [] ↔ text = [] := by
  rw [hstands.rest]
  cases text with
  | nil => exact iff_of_true rfl rfl
  | cons c text =>
    refine iff_of_false (fun hnil => ?_) (List.cons_ne_nil _ _)
    exact encode_ne_nil c (List.append_eq_nil_iff.1 (bytesOf_cons c text ▸ hnil)).1

theorem advance (hstands : Stands total ⟨c :: text, line⟩ scanner) (hc : c.toNat < 128) :
    Stands total ⟨text, line⟩ scanner.advance := by
  obtain ⟨byte, hencode, -⟩ := encode_narrow hc
  have hrest : scanner.rest = byte :: bytesOf text := by rw [hstands.rest, bytesOf_cons, hencode]; rfl
  have hposition := hstands.position
  rw [hrest, List.length_cons] at hposition
  unfold Scanner.advance
  rw [hrest]
  exact ⟨rfl, hstands.line, by dsimp only; omega⟩

theorem advanceLine (hstands : Stands total ⟨'\n' :: text, line⟩ scanner) : Stands total ⟨text, line + 1⟩ scanner.advanceLine := by
  have hnext := hstands.advance (by decide)
  exact ⟨hnext.rest, congrArg (· + 1) hstands.line, hnext.position⟩

theorem eatWhile {holds : Char → Bool} (huniform : Uniform holds) (hstands : Stands total ⟨text, line⟩ scanner) :
    Stands total ⟨text.dropWhile holds, line⟩ (scanner.eatWhile holds) := by
  refine ⟨?_, hstands.line, ?_⟩
  · rw [Scanner.eatWhile, hstands.rest, dropWhile_bytesOf huniform]
  · have hlength := congrArg List.length (@List.takeWhile_append_dropWhile _ (fun byte => holds (Char.ofUInt8 byte)) scanner.rest)
    have hposition := hstands.position
    rw [List.length_append] at hlength
    simp only [Scanner.eatWhile]
    omega

/-- A function that passes over every byte of 128 and more passes over those of one character. -/
theorem pass {β : Type} {f : Scanner → β} (hf : ∀ scanner : Scanner, 128 ≤ scanner.current.toNat → f scanner = f scanner.advance)
    {wide : List UInt8} (hwide : ∀ byte ∈ wide, 128 ≤ byte.toNat) (hrest : scanner.rest = wide ++ bytesOf text)
    (hposition : scanner.position + scanner.rest.length = total) :
    ∃ behind, f scanner = f behind ∧ Stands total ⟨text, scanner.line⟩ behind := by
  induction wide generalizing scanner with
  | nil => exact ⟨scanner, rfl, hrest, rfl, hposition⟩
  | cons byte wide ih =>
    have hadvance : scanner.advance = { scanner with rest := wide ++ bytesOf text, position := scanner.position + 1 } := by
      unfold Scanner.advance
      rw [hrest]
      rfl
    have hcurrent : 128 ≤ scanner.current.toNat := by
      rw [current, hrest]
      exact hwide byte List.mem_cons_self
    rw [hrest, List.cons_append, List.length_cons] at hposition
    rw [hf scanner hcurrent, hadvance]
    exact ih (fun other hother => hwide other (List.mem_cons_of_mem _ hother)) rfl (by dsimp only; omega)

theorem pass_wide {β : Type} {f : Scanner → β} (hf : ∀ scanner : Scanner, 128 ≤ scanner.current.toNat → f scanner = f scanner.advance)
    (hstands : Stands total ⟨c :: text, line⟩ scanner) (hc : 128 ≤ c.toNat) :
    ∃ behind, f scanner = f behind ∧ Stands total ⟨text, line⟩ behind := by
  obtain ⟨lead, more, hencode, hlead, hmore⟩ := encode_wide hc
  have hline : scanner.line = line := hstands.line
  rw [← hline]
  refine pass hf (fun byte hbyte => ?_) (hstands.rest.trans (bytesOf_cons c text)) hstands.position
  rw [hencode, List.mem_cons] at hbyte
  rcases hbyte with rfl | hbyte
  · omega
  · exact ((isContinuation_iff byte).1 (hmore byte hbyte)).1

end Stands

/-! ### Trivia -/

theorem ne_of_wide (hwide : 128 ≤ scanner.current.toNat) (hc : c.toNat < 128) : scanner.current ≠ c := by
  rintro rfl
  omega

theorem unread_of_wide (hwide : 128 ≤ scanner.current.toNat) : scanner.rest ≠ [] :=
  unread_of_current rfl (ne_of_wide hwide (by decide))

theorem blockComment_wide (scanner : Scanner) (hwide : 128 ≤ scanner.current.toNat) :
    scanner.blockComment = scanner.advance.blockComment := by
  rw [blockComment, if_neg (unread_of_wide hwide), if_neg fun hstar => ne_of_wide hwide (by decide) hstar.1,
    if_neg (ne_of_wide hwide (by decide))]

theorem skipTrivia_of_some (hskip : scanner.skipOne? = some stop) : scanner.skipTrivia = stop.skipTrivia := by
  rw [skipTrivia]
  split
  · next hother => rw [Option.some.inj (hother.symm.trans hskip)]
  · next hnone => rw [hskip] at hnone; contradiction

theorem skipTrivia_of_none (hskip : scanner.skipOne? = none) : scanner.skipTrivia = scanner := by
  rw [skipTrivia]
  split
  · next hsome => rw [hskip] at hsome; contradiction
  · rfl

theorem uniform_feed : Uniform (· != '\n') := by
  intro c d hc hd
  have hne {c : Char} (hc : 128 ≤ c.toNat) : (c != '\n') = true := bne_iff_ne.2 fun hfeed => absurd (hfeed ▸ hc) (by decide)
  exact (hne hc).trans (hne hd).symm

/-- Where a scanner has come to when a cursor is at the front of a text in a gap: it passes over comments at once. -/
def Passes (total : Nat) (text : List Char) (line : Nat) (scanner : Scanner) : Gap → Prop
  | .blank => Stands total ⟨text, line⟩ scanner
  | .lineComment => Stands total ⟨text.dropWhile (· != '\n'), line⟩ scanner
  | .blockComment => ∃ inside, Stands total ⟨text, line⟩ inside ∧ scanner = inside.blockComment

theorem skipOne?_eq_none (hblank : scanner.current ∉ [' ', '\t', '\r', '\n'])
    (hcomment : scanner.current = '/' → scanner.peek ≠ '/' ∧ scanner.peek ≠ '*') : scanner.skipOne? = none := by
  unfold skipOne?
  split
  case h_5 hslash =>
    obtain ⟨hline, hblock⟩ := hcomment hslash
    split <;> trivial
  case h_6 => rfl
  all_goals simp_all

theorem skipTrivia_end (hstands : Stands total ⟨[], line⟩ scanner) : Stands total ⟨[], line⟩ scanner.skipTrivia := by
  have hcurrent : scanner.current = '\x00' := (hstands.current_eq_iff (by decide)).2 rfl
  have hskip : scanner.skipOne? = none :=
    skipOne?_eq_none (by rw [hcurrent]; decide) fun hslash => absurd (hcurrent.symm.trans hslash) (by decide)
  rwa [skipTrivia_of_none hskip]

theorem skipTrivia_feed {goal : Cursor} (hstands : Stands total ⟨'\n' :: text, line⟩ scanner)
    (hrest : ∀ {behind : Scanner}, Stands total ⟨text, line + 1⟩ behind → Stands total goal behind.skipTrivia) :
    Stands total goal scanner.skipTrivia := by
  have hcurrent := hstands.current_narrow (by decide)
  have hskip : scanner.skipOne? = some scanner.advanceLine := by simp only [skipOne?, hcurrent]
  rw [skipTrivia_of_some hskip]
  exact hrest hstands.advanceLine

/-- A character inside of a block comment. -/
theorem blockComment_step (hstands : Stands total ⟨c :: text, line⟩ scanner) (hopen : ¬ (c = '*' ∧ text.headD '\x00' = '/')) :
    ∃ behind, scanner.blockComment = behind.blockComment ∧
      Stands total ⟨text, if c = '\n' then line + 1 else line⟩ behind := by
  by_cases hc : c.toNat < 128
  · have hnext := hstands.advance hc
    have hcurrent := hstands.current_narrow hc
    have hunread := mt hstands.rest_eq_nil_iff.1 (List.cons_ne_nil _ _)
    rw [blockComment, if_neg hunread, if_neg fun hclose => ?_, hcurrent]
    rotate_left
    · exact hopen ⟨hcurrent.symm.trans hclose.1, (hnext.current_eq_iff (by decide)).1 ((peek_eq scanner).symm.trans hclose.2)⟩
    split
    · next hfeed =>
      subst hfeed
      exact ⟨_, rfl, hstands.advanceLine⟩
    · exact ⟨_, rfl, hnext⟩
  · have hwide := Nat.not_lt.1 hc
    rw [if_neg fun hfeed => absurd (hfeed ▸ hwide) (by decide)]
    exact hstands.pass_wide blockComment_wide hwide

theorem skipTrivia_of_passes (gap : Gap) (hpasses : Passes total text line scanner gap) :
    Stands total ⟨skip gap text, skipLine gap line text⟩ scanner.skipTrivia := by
  fun_induction skip gap text generalizing line scanner with
  | case1 rest ih | case2 rest ih | case3 rest ih =>
    have hstands : Stands _ _ _ := hpasses
    have hcurrent := hstands.current_narrow (by decide)
    have hskip : scanner.skipOne? = some scanner.advance := by simp only [skipOne?, hcurrent]
    rw [skipTrivia_of_some hskip]
    exact ih (hstands.advance (by decide))
  | case4 rest ih => exact skipTrivia_feed hpasses ih
  | case5 rest ih =>
    have hstands : Stands _ _ _ := hpasses
    have hnext := hstands.advance (by decide)
    have hcurrent := hstands.current_narrow (by decide)
    have hpeek := hnext.current_narrow (by decide)
    have hskip : scanner.skipOne? = some (scanner.eatWhile (· != '\n')) := by simp only [skipOne?, hcurrent, peek_eq, hpeek]
    rw [skipTrivia_of_some hskip]
    exact ih (hstands.eatWhile uniform_feed : Stands total ⟨('/' :: '/' :: rest).dropWhile (· != '\n'), line⟩ _)
  | case6 rest ih =>
    have hstands : Stands _ _ _ := hpasses
    have hnext := hstands.advance (by decide)
    have hcurrent := hstands.current_narrow (by decide)
    have hpeek := hnext.current_narrow (by decide)
    have hskip : scanner.skipOne? = some scanner.advance.advance.blockComment := by simp only [skipOne?, hcurrent, peek_eq, hpeek]
    rw [skipTrivia_of_some hskip]
    exact ih ⟨_, hnext.advance (by decide), rfl⟩
  | case7 text hspace htab hreturn hfeed hline hblock =>
    have hstands : Stands _ _ _ := hpasses
    have hskip : scanner.skipOne? = none := by
      refine skipOne?_eq_none (fun hblank => ?_) fun hslash => ?_
      · simp only [List.mem_cons, List.not_mem_nil, or_false] at hblank
        rcases hblank with hcurrent | hcurrent | hcurrent | hcurrent <;> obtain ⟨rest, rfl⟩ := hstands.of_current hcurrent (by decide)
        · exact hspace rest rfl
        · exact htab rest rfl
        · exact hreturn rest rfl
        · exact hfeed rest rfl
      · obtain ⟨rest, rfl⟩ := hstands.of_current hslash (by decide)
        have hnext := hstands.advance (by decide)
        rw [peek_eq]
        refine ⟨fun hcurrent => ?_, fun hcurrent => ?_⟩ <;> obtain ⟨more, rfl⟩ := hnext.of_current hcurrent (by decide)
        · exact hline more rfl
        · exact hblock more rfl
    rw [skipTrivia_of_none hskip]
    rw [skipLine] <;> assumption
  | case8 => exact skipTrivia_end hpasses
  | case9 rest ih => exact skipTrivia_feed hpasses ih
  | case10 c rest hc ih =>
    have hdrop : (c :: rest).dropWhile (· != '\n') = rest.dropWhile (· != '\n') := by
      rw [List.dropWhile_cons, if_pos (bne_iff_ne.2 hc)]
    rw [Passes, hdrop] at hpasses
    rw [skipLine]
    · exact ih hpasses
    · exact hc
  | case11 =>
    obtain ⟨inside, hstands, rfl⟩ := hpasses
    rw [blockComment, if_pos (hstands.rest_eq_nil_iff.2 rfl)]
    exact skipTrivia_end hstands
  | case12 rest ih =>
    obtain ⟨inside, hstands, rfl⟩ := hpasses
    have hnext := hstands.advance (by decide)
    have hclose : inside.current = '*' ∧ inside.peek = '/' :=
      ⟨hstands.current_narrow (by decide), (peek_eq inside).trans (hnext.current_narrow (by decide))⟩
    rw [blockComment, if_neg (mt hstands.rest_eq_nil_iff.1 (List.cons_ne_nil _ _)), if_pos hclose]
    exact ih (hnext.advance (by decide))
  | case13 c rest hopen ih =>
    obtain ⟨inside, hstands, rfl⟩ := hpasses
    have hopen' : ¬ (c = '*' ∧ rest.headD '\x00' = '/') := by
      rintro ⟨hstar, hslash⟩
      cases rest with
      | nil => cases hslash
      | cons d more => exact hopen more hstar (congrArg (· :: more) hslash)
    obtain ⟨behind, hbehind, hstands⟩ := blockComment_step hstands hopen'
    have hpasses := ih ⟨behind, hstands, hbehind⟩
    split at hpasses
    · next hfeed =>
      subst hfeed
      exact hpasses
    · next hfeed =>
      rw [skipLine]
      · exact hpasses
      · exact hopen
      · exact hfeed

/-! ### Strings -/

theorem string_wide (scanner : Scanner) (hwide : 128 ≤ scanner.current.toNat) : scanner.string = scanner.advance.string := by
  rw [string, if_neg (unread_of_wide hwide)]
  split
  case h_4 => rfl
  all_goals
    rename_i hcurrent
    exact absurd hcurrent (ne_of_wide hwide (by decide))

/-- A character that neither closes a string nor is a backslash. -/
theorem string_step (hstands : Stands total ⟨c :: text, line⟩ scanner) (hquote : c ≠ '"') (hbackslash : c ≠ '\\') :
    ∃ behind, scanner.string = behind.string ∧ Stands total ⟨text, line + [c].count '\n'⟩ behind := by
  by_cases hc : c.toNat < 128
  · have hunread := mt hstands.rest_eq_nil_iff.1 (List.cons_ne_nil _ _)
    rw [string, if_neg hunread, hstands.current_narrow hc]
    split
    · exact absurd rfl hquote
    · exact ⟨_, rfl, hstands.advanceLine⟩
    · exact absurd rfl hbackslash
    · next hfeed _ =>
      rw [List.count_singleton, if_neg fun hsame => hfeed (eq_of_beq hsame)]
      exact ⟨_, rfl, hstands.advance hc⟩
  · have hwide := Nat.not_lt.1 hc
    rw [List.count_singleton, if_neg fun hsame => absurd (eq_of_beq hsame ▸ hwide) (by decide)]
    exact hstands.pass_wide string_wide hwide

/-- A backslash takes one byte along. What that leaves of a longer character is passed over as well. -/
theorem string_escape (hstands : Stands total ⟨'\\' :: c :: text, line⟩ scanner) :
    ∃ behind, scanner.string = behind.string ∧ Stands total ⟨text, line + [c].count '\n'⟩ behind := by
  have hunread := mt hstands.rest_eq_nil_iff.1 (List.cons_ne_nil _ _)
  have hnext := hstands.advance (by decide)
  have hstring : scanner.string =
      (if scanner.advance.current = '\n' then scanner.advance.advanceLine else scanner.advance.advance).string := by
    rw [string, if_neg hunread]
    simp only [hstands.current_narrow (by decide)]
  rw [hstring, List.count_singleton]
  by_cases hc : c.toNat < 128
  · rw [hnext.current_narrow hc]
    split
    · next hfeed =>
      subst hfeed
      exact ⟨_, rfl, hnext.advanceLine⟩
    · next hfeed =>
      rw [if_neg fun hsame => hfeed (eq_of_beq hsame)]
      exact ⟨_, rfl, hnext.advance hc⟩
  · have hwide := Nat.not_lt.1 hc
    obtain ⟨lead, more, hencode, hlead, hmore⟩ := encode_wide hwide
    have hrest : scanner.advance.rest = lead :: (more ++ bytesOf text) := by rw [hnext.rest, bytesOf_cons, hencode]; rfl
    have hposition := hnext.position
    have hline : scanner.advance.line = line := hnext.line
    have hadvance : scanner.advance.advance = ⟨more ++ bytesOf text, scanner.advance.position + 1, scanner.advance.line⟩ := by
      rw [Scanner.advance.eq_def scanner.advance, hrest]
    have hfeed : ¬ scanner.advance.current = '\n' := fun hcurrent => by
      have hsame : c = '\n' := (hnext.current_eq_iff (by decide)).1 hcurrent
      exact absurd (hsame ▸ hwide) (by decide)
    rw [hrest, List.length_cons] at hposition
    rw [if_neg hfeed, if_neg fun hsame => absurd (eq_of_beq hsame ▸ hwide) (by decide), hadvance, ← hline]
    exact Stands.pass string_wide (fun byte hbyte => ((isContinuation_iff byte).1 (hmore byte hbyte)).1) rfl (by dsimp only; omega)

/-- A string is closed where a cursor says so, given the number of characters in front, or not at all. -/
def Closes (total : Nat) (text : List Char) (line count : Nat) (found : Bool × Scanner) : Option Nat → Prop
  | some close => ∃ body rest, text = body ++ rest ∧ close = count + body.length ∧ found.1 = true ∧
      Stands total ⟨rest, line + body.count '\n'⟩ found.2
  | none => found.1 = false ∧ Stands total ⟨[], line + text.count '\n'⟩ found.2

theorem Closes.append {count : Nat} {found : Bool × Scanner} {close : Option Nat} (front : List Char)
    (hcloses : Closes total text (line + front.count '\n') (count + front.length) found close) :
    Closes total (front ++ text) line count found close := by
  cases close with
  | none =>
    rw [Closes, List.count_append, ← Nat.add_assoc]
    exact hcloses
  | some close =>
    obtain ⟨body, rest, rfl, rfl, hclosed, hrest⟩ := hcloses
    refine ⟨front ++ body, rest, (List.append_assoc ..).symm, ?_, hclosed, ?_⟩
    · rw [List.length_append, Nat.add_assoc]
    · rwa [List.count_append, ← Nat.add_assoc]

theorem closes_string (text : List Char) (count : Nat) (hstands : Stands total ⟨text, line⟩ scanner) :
    Closes total text line count scanner.string (closeString text count) := by
  fun_induction closeString text count generalizing line scanner with
  | case1 count =>
    rw [string, if_pos (hstands.rest_eq_nil_iff.2 rfl)]
    exact ⟨rfl, hstands⟩
  | case2 rest count =>
    have hunread := mt hstands.rest_eq_nil_iff.1 (List.cons_ne_nil _ _)
    have hstring : scanner.string = (true, scanner.advance) := by
      rw [string, if_neg hunread]
      simp only [hstands.current_narrow (by decide)]
    rw [hstring]
    exact ⟨['"'], rest, rfl, rfl, rfl, hstands.advance (by decide)⟩
  | case3 count =>
    have hunread := mt hstands.rest_eq_nil_iff.1 (List.cons_ne_nil _ _)
    have hnext := hstands.advance (by decide)
    have hend : scanner.advance.rest = [] := hnext.rest_eq_nil_iff.2 rfl
    have hstay : scanner.advance.advance = scanner.advance := by rw [Scanner.advance.eq_def scanner.advance, hend]
    have hfeed : ¬ scanner.advance.current = '\n' := fun hcurrent => absurd hend (unread_of_current hcurrent (by decide))
    have hstring : scanner.string = scanner.advance.string := by
      rw [string, if_neg hunread]
      simp only [hstands.current_narrow (by decide), if_neg hfeed, hstay]
    rw [hstring, string, if_pos hend]
    exact ⟨rfl, hnext⟩
  | case4 c rest count ih =>
    obtain ⟨behind, hbehind, hafter⟩ := string_escape hstands
    rw [hbehind]
    exact Closes.append ['\\', c] (by rw [List.count_cons_of_ne (by decide)]; exact ih hafter)
  | case5 c rest count hquote hend hescape ih =>
    have hbackslash : c ≠ '\\' := fun hc => by
      cases rest with
      | nil => exact hend hc rfl
      | cons d more => exact hescape d more hc rfl
    obtain ⟨behind, hbehind, hafter⟩ := string_step hstands hquote hbackslash
    rw [hbehind]
    exact Closes.append [c] (ih hafter)

/-! ### Tokens -/

theorem Stands.atBoundary (hstands : Stands total ⟨text, line⟩ scanner) : scanner.atBoundary = true := by
  rw [Scanner.atBoundary, hstands.rest, Bool.not_eq_true', ← Bool.not_eq_true, isContinuation_iff]
  cases text with
  | nil => exact fun hbounds => absurd (show 128 ≤ (0 : UInt8).toNat from hbounds.1) (by decide)
  | cons c text =>
    rw [bytesOf_cons]
    by_cases hc : c.toNat < 128
    · obtain ⟨byte, hencode, rfl⟩ := encode_narrow hc
      rw [hencode]
      exact fun hbounds => absurd hbounds.1 (Nat.not_le.2 hc)
    · obtain ⟨lead, more, hencode, hlead, -⟩ := encode_wide (Nat.not_lt.1 hc)
      rw [hencode]
      exact fun hbounds => absurd hbounds.2 (Nat.not_le.2 hlead)

/-- Between the places of cursors, what is cut out is the characters between them. -/
theorem slice?_eq {last : Nat} (hstart : Stands total ⟨front ++ back, line⟩ start) (hstop : Stands total ⟨back, last⟩ stop) :
    slice? start stop = some (String.ofList front) := by
  have hbytes : start.rest = bytesOf front ++ stop.rest := by rw [hstart.rest, hstop.rest, bytesOf_append]
  have hlength := congrArg List.length hbytes
  have hposition := hstart.position
  have hposition' := hstop.position
  rw [List.length_append] at hlength
  have htake : start.rest.take (stop.position - start.position) = bytesOf front := by
    rw [hbytes, show stop.position - start.position = (bytesOf front).length by omega, List.take_left]
  have hvalid : (⟨(bytesOf front).toArray⟩ : ByteArray) = (String.ofList front).toByteArray := by
    rw [← toList_toByteArray]
  rw [slice?, hstart.atBoundary, hstop.atBoundary, htake, hvalid, String.fromUTF8?]
  exact dif_pos (String.ofList front).isValidUTF8

/-- A scanner finds the token that a cursor cuts off. -/
def Agrees (total : Nat) (text : List Char) (line : Nat) (found : Nat × Verdict) (result : Option (Token × Scanner)) : Prop :=
  ∃ stop, result = some (found.2.token (text.take found.1) (line + (text.take found.1).count '\n'), stop) ∧
    Stands total ⟨text.drop found.1, line + (text.take found.1).count '\n'⟩ stop

theorem agrees_make? {count : Nat} (hcount : front.length = count) (hstart : Stands total ⟨front ++ back, line⟩ start)
    (hstop : Stands total ⟨back, line + front.count '\n'⟩ stop) (kind : TokenKind) :
    Agrees total (front ++ back) line (count, .ok kind) (make? start stop kind) := by
  subst hcount
  refine ⟨stop, ?_, ?_⟩
  · rw [make?, slice?_eq hstart hstop, List.take_left, hstop.line]
    rfl
  · rwa [List.drop_left, List.take_left]

theorem agrees_fail {count : Nat} (hcount : front.length = count) (hstop : Stands total ⟨back, line + front.count '\n'⟩ stop)
    (problem : LexicalError) : Agrees total (front ++ back) line (count, .error problem) (some (stop.fail problem)) := by
  subst hcount
  refine ⟨stop, ?_, ?_⟩
  · rw [fail, List.take_left, hstop.line]
    rfl
  · rwa [List.drop_left, List.take_left]

/-! ### Classes of characters -/

theorem narrow_of_isNamePart (hc : isNamePart c = true) : c.toNat < 128 := by
  have hpart : isNamePart c = (((decide ('A'.val ≤ c.val ∧ c.val ≤ 'Z'.val) || (decide ('a'.val ≤ c.val) && decide (c.val ≤ 'z'.val))) ||
      (decide ('0'.val ≤ c.val) && decide (c.val ≤ '9'.val))) || c == '_') := rfl
  simp only [hpart, Bool.or_eq_true, Bool.and_eq_true, decide_eq_true_eq, beq_iff_eq] at hc
  rcases hc with ((⟨-, hle⟩ | ⟨-, hle⟩) | ⟨-, hle⟩) | rfl
  case inr => decide
  all_goals exact Nat.lt_of_le_of_lt hle (by decide)

theorem narrow_of_isHexDigit (hc : isHexDigit c = true) : c.toNat < 128 := by
  simp only [isHexDigit, Char.isDigit, Bool.or_eq_true, Bool.and_eq_true, decide_eq_true_eq] at hc
  rcases hc with (⟨-, hle⟩ | ⟨-, hle⟩) | ⟨-, hle⟩ <;> exact Nat.lt_of_le_of_lt hle (by decide)

theorem narrow_of_isBinaryDigit (hc : isBinaryDigit c = true) : c.toNat < 128 := by
  simp only [isBinaryDigit, Bool.or_eq_true, beq_iff_eq] at hc
  rcases hc with rfl | rfl <;> decide

theorem isNamePart_of_isDigit (hc : c.isDigit = true) : isNamePart c = true := by
  rw [isNamePart, Char.isAlphanum, hc, Bool.or_true, Bool.true_or]

theorem isNamePart_of_isNameStart (hc : isNameStart c = true) : isNamePart c = true := by
  rw [isNameStart, Bool.or_eq_true] at hc
  rcases hc with hc | hc
  · rw [isNamePart, Char.isAlphanum, hc, Bool.true_or, Bool.true_or]
  · rw [isNamePart, hc, Bool.or_true]

theorem uniform_isDigit : Uniform Char.isDigit := uniform_of_false fun _ hc => narrow_of_isNamePart (isNamePart_of_isDigit hc)

theorem uniform_isNameStart : Uniform isNameStart := uniform_of_false fun _ hc => narrow_of_isNamePart (isNamePart_of_isNameStart hc)

theorem count_takeWhile {holds : Char → Bool} (hfeed : holds '\n' = false) (text : List Char) :
    (text.takeWhile holds).count '\n' = 0 := by
  refine List.count_eq_zero.2 fun hmem => ?_
  have hall := @List.all_takeWhile _ holds text
  rw [List.all_eq_true] at hall
  exact absurd (hall _ hmem) (by rw [hfeed]; decide)

/-! ### Names and numbers -/

section

variable (hstart : Stands total ⟨c :: text, line⟩ start)

include hstart

/-- A token that goes on as long as a test holds. -/
theorem agrees_eatWhile {holds : Char → Bool} {more : List Char} {count : Nat} (huniform : Uniform holds) (hfeed : holds '\n' = false)
    (hfront : (c :: front).count '\n' = 0) (htext : text = front ++ more)
    (hscanner : Stands total ⟨more, line⟩ scanner) (hcount : (c :: front).length + (more.takeWhile holds).length = count) (kind : TokenKind) :
    Agrees total (c :: text) line (count, .ok kind) (make? start (scanner.eatWhile holds) kind) := by
  have hsplit : c :: text = (c :: front ++ more.takeWhile holds) ++ more.dropWhile holds := by
    rw [htext, List.append_assoc, List.takeWhile_append_dropWhile, List.cons_append]
  rw [hsplit] at hstart ⊢
  refine agrees_make? (by rw [List.length_append, hcount]) hstart ?_ kind
  rw [List.count_append, hfront, count_takeWhile hfeed]
  exact hscanner.eatWhile huniform

theorem agrees_name? (hc : isNameStart c = true) :
    Agrees total (c :: text) line ((c :: text.takeWhile isNamePart).length,
      .ok ((TokenKind.ofKeyword? (String.ofList (c :: text.takeWhile isNamePart))).getD .identifier)) (name? start start.advance) := by
  have hnarrow := narrow_of_isNamePart (isNamePart_of_isNameStart hc)
  have hnext := hstart.advance hnarrow
  have huniform : Uniform isNamePart := uniform_of_false fun _ => narrow_of_isNamePart
  have hfeed : c ≠ '\n' := by
    rintro rfl
    exact absurd hc (by decide)
  have hsplit : c :: text = (c :: text.takeWhile isNamePart) ++ text.dropWhile isNamePart := by
    rw [List.cons_append, List.takeWhile_append_dropWhile]
  have hslice : slice? start (start.advance.eatWhile isNamePart) = some (String.ofList (c :: text.takeWhile isNamePart)) :=
    slice?_eq (hsplit ▸ hstart) (hnext.eatWhile huniform)
  have hname : name? start start.advance = make? start (start.advance.eatWhile isNamePart)
      ((TokenKind.ofKeyword? (String.ofList (c :: text.takeWhile isNamePart))).getD .identifier) := by
    rw [name?, hslice]
    rfl
  rw [hname]
  exact agrees_eatWhile hstart huniform (by decide) (List.count_eq_zero.2 (by simpa using hfeed.symm)) (List.nil_append _).symm hnext
    (by rw [List.length_cons, List.length_cons, List.length_nil]; omega) _

end

/-- A mark counts with a character of some class behind it. -/
theorem Stands.mark_iff {holds : Char → Bool} {mark : Char} (huniform : Uniform holds) (hzero : holds '\x00' = false)
    (hmark : mark.toNat < 128 ∧ mark ≠ '\x00') (hstands : Stands total ⟨text, line⟩ scanner) :
    scanner.current = mark ∧ holds scanner.peek = true ↔ ∃ digit more, text = mark :: digit :: more ∧ holds digit = true := by
  constructor
  · rintro ⟨hcurrent, hpeek⟩
    obtain ⟨rest, rfl⟩ := hstands.of_current hcurrent hmark
    rw [peek_eq, (hstands.advance hmark.1).holds_current huniform] at hpeek
    cases rest with
    | nil => exact absurd (hzero.symm.trans hpeek) (by decide)
    | cons digit more => exact ⟨digit, more, rfl, hpeek⟩
  · rintro ⟨digit, more, rfl, hdigit⟩
    refine ⟨hstands.current_narrow hmark.1, ?_⟩
    rw [peek_eq, (hstands.advance hmark.1).holds_current huniform]
    exact hdigit

/-- The text of a number behind its first digit has a radix mark. -/
def Marked (holds : Char → Bool) (small large : Char) (text : List Char) : Prop :=
  ∃ mark digit more, text = mark :: digit :: more ∧ (mark = small ∨ mark = large) ∧ holds digit = true

theorem marked_iff {holds : Char → Bool} {small large : Char} (huniform : Uniform holds) (hzero : holds '\x00' = false)
    (hsmall : small.toNat < 128 ∧ small ≠ '\x00') (hlarge : large.toNat < 128 ∧ large ≠ '\x00')
    (hstands : Stands total ⟨text, line⟩ scanner) :
    (scanner.current = small ∨ scanner.current = large) ∧ holds scanner.peek = true ↔ Marked holds small large text := by
  rw [or_and_right, hstands.mark_iff huniform hzero hsmall, hstands.mark_iff huniform hzero hlarge]
  constructor
  · rintro (⟨digit, more, rfl, hdigit⟩ | ⟨digit, more, rfl, hdigit⟩)
    · exact ⟨small, digit, more, rfl, .inl rfl, hdigit⟩
    · exact ⟨large, digit, more, rfl, .inr rfl, hdigit⟩
  · rintro ⟨mark, digit, more, rfl, rfl | rfl, hdigit⟩
    · exact .inl ⟨digit, more, rfl, hdigit⟩
    · exact .inr ⟨digit, more, rfl, hdigit⟩

theorem cutNumber_eq_decimal (hhex : ¬ (c = '0' ∧ Marked isHexDigit 'x' 'X' text)) (hbinary : ¬ (c = '0' ∧ Marked isBinaryDigit 'b' 'B' text)) :
    cutNumber c text = cutNumber.decimal text := by
  unfold cutNumber
  split
  · next mark digit more =>
    have hnot {holds : Char → Bool} {small large : Char} (hmarked : ¬ ('0' = '0' ∧ Marked holds small large (mark :: digit :: more))) :
        ¬ ((mark == small || mark == large) && holds digit) = true := fun hmark => hmarked ⟨rfl, mark, digit, more, rfl, by
          simpa [Bool.and_eq_true, Bool.or_eq_true, beq_iff_eq] using hmark⟩
    rw [if_neg (hnot hhex), if_neg (hnot hbinary)]
  · rfl

theorem cutNumber_hex (hmarked : Marked isHexDigit 'x' 'X' text) :
    cutNumber '0' text = (2 + (text.tail.takeWhile isHexDigit).length, .number) := by
  obtain ⟨mark, digit, more, rfl, hmark, hdigit⟩ := hmarked
  rw [cutNumber, if_pos (by rcases hmark with rfl | rfl <;> simp [hdigit])]
  rfl

theorem cutNumber_binary (hmarked : Marked isBinaryDigit 'b' 'B' text) :
    cutNumber '0' text = (2 + (text.tail.takeWhile isBinaryDigit).length, .number) := by
  obtain ⟨mark, digit, more, rfl, hmark, hdigit⟩ := hmarked
  rw [cutNumber, if_neg (by rcases hmark with rfl | rfl <;> simp), if_pos (by rcases hmark with rfl | rfl <;> simp [hdigit])]
  rfl

theorem agrees_radix {holds : Char → Bool} {small large : Char} (huniform : Uniform holds) (hfeed : holds '\n' = false)
    (hsmall : small.toNat < 128 ∧ small ≠ '\n') (hlarge : large.toNat < 128 ∧ large ≠ '\n')
    (hstart : Stands total ⟨'0' :: text, line⟩ start) (hmarked : Marked holds small large text) :
    Agrees total ('0' :: text) line (2 + (text.tail.takeWhile holds).length, .ok .number)
      (make? start (start.advance.advance.eatWhile holds) .number) := by
  obtain ⟨mark, digit, more, rfl, hmark, -⟩ := hmarked
  have hplain : mark.toNat < 128 ∧ mark ≠ '\n' := by rcases hmark with rfl | rfl <;> assumption
  have hnext := (hstart.advance (by decide)).advance hplain.1
  refine agrees_eatWhile hstart huniform hfeed (List.count_eq_zero.2 ?_) (List.singleton_append (x := mark)).symm hnext rfl .number
  simpa using hplain.2.symm

theorem agrees_decimal (hstart : Stands total ⟨c :: text, line⟩ start) (hc : c.isDigit = true) :
    Agrees total (c :: text) line ((cutNumber.decimal text).1, .ok (cutNumber.decimal text).2)
      (let whole := start.advance.eatWhile Char.isDigit
       if whole.current = '.' ∧ whole.peek.isDigit then make? start (whole.advance.eatWhile Char.isDigit) .float
       else make? start whole .number) := by
  have hnext := hstart.advance (narrow_of_isNamePart (isNamePart_of_isDigit hc))
  have hwhole := hnext.eatWhile uniform_isDigit
  have hfeed : [c].count '\n' = 0 := List.count_eq_zero.2 fun hmem => by
    rw [← List.mem_singleton.1 hmem] at hc
    exact absurd hc (by decide)
  dsimp only
  by_cases hpoint : ∃ digit more, text.dropWhile Char.isDigit = '.' :: digit :: more ∧ digit.isDigit = true
  · rw [if_pos ((hwhole.mark_iff uniform_isDigit (by decide) (by decide)).2 hpoint)]
    obtain ⟨digit, more, hdrop, hdigit⟩ := hpoint
    rw [hdrop] at hwhole
    have hdecimal : cutNumber.decimal text =
        (1 + (text.takeWhile Char.isDigit).length + 1 + ((digit :: more).takeWhile Char.isDigit).length, .float) := by
      rw [cutNumber.decimal, hdrop]
      exact if_pos hdigit
    have hsplit : text = (text.takeWhile Char.isDigit ++ ['.']) ++ digit :: more := by
      rw [List.append_assoc, List.singleton_append, ← hdrop, List.takeWhile_append_dropWhile]
    rw [hdecimal]
    refine agrees_eatWhile hstart uniform_isDigit (by decide) ?_ hsplit (hwhole.advance (by decide)) ?_ .float
    · rw [← List.singleton_append, List.count_append, List.count_append, hfeed, count_takeWhile (by decide)]
      rfl
    · simp only [List.length_cons, List.length_append, List.length_nil]
      omega
  · rw [if_neg (mt (hwhole.mark_iff uniform_isDigit (by decide) (by decide)).1 hpoint)]
    have hdecimal : cutNumber.decimal text = (1 + (text.takeWhile Char.isDigit).length, .number) := by
      rw [cutNumber.decimal]
      split
      · next digit more hdrop => rw [if_neg fun hdigit => hpoint ⟨digit, more, hdrop, hdigit⟩]
      · rfl
    rw [hdecimal]
    exact agrees_eatWhile hstart uniform_isDigit (by decide) hfeed (List.nil_append _).symm hnext rfl .number

theorem agrees_number? (hstart : Stands total ⟨c :: text, line⟩ start) (hc : c.isDigit = true) :
    Agrees total (c :: text) line ((cutNumber c text).1, .ok (cutNumber c text).2) (number? start start.advance) := by
  have hnarrow := narrow_of_isNamePart (isNamePart_of_isDigit hc)
  have hnext := hstart.advance hnarrow
  have huniformHex : Uniform isHexDigit := uniform_of_false fun _ => narrow_of_isHexDigit
  have huniformBinary : Uniform isBinaryDigit := uniform_of_false fun _ => narrow_of_isBinaryDigit
  have hhex := @marked_iff _ _ _ _ _ 'x' 'X' huniformHex (by decide) (by decide) (by decide) hnext
  have hbinary := @marked_iff _ _ _ _ _ 'b' 'B' huniformBinary (by decide) (by decide) (by decide) hnext
  have hcurrent := hstart.current_narrow hnarrow
  unfold number?
  rw [hcurrent]
  by_cases hmarked : c = '0' ∧ Marked isHexDigit 'x' 'X' text
  · obtain ⟨rfl, hmarked⟩ := hmarked
    rw [if_pos ⟨rfl, hhex.2 hmarked⟩, cutNumber_hex hmarked]
    exact agrees_radix huniformHex (by decide) (by decide) (by decide) hstart hmarked
  · rw [if_neg (mt (And.imp id hhex.1) hmarked)]
    by_cases hmarked' : c = '0' ∧ Marked isBinaryDigit 'b' 'B' text
    · obtain ⟨rfl, hmarked'⟩ := hmarked'
      rw [if_pos ⟨rfl, hbinary.2 hmarked'⟩, cutNumber_binary hmarked']
      exact agrees_radix huniformBinary (by decide) (by decide) (by decide) hstart hmarked'
    · rw [if_neg (mt (And.imp id hbinary.1) hmarked'), cutNumber_eq_decimal hmarked hmarked']
      exact agrees_decimal hstart hc

/-! ### Signs -/

theorem Stands.eat?_cons (hstands : Stands total ⟨expected :: text, line⟩ scanner) (hexpected : expected.toNat < 128) :
    scanner.eat? expected = some scanner.advance :=
  if_pos ⟨mt hstands.rest_eq_nil_iff.1 (List.cons_ne_nil _ _), hstands.current_narrow hexpected⟩

theorem Stands.eat?_of_ne (hstands : Stands total ⟨text, line⟩ scanner) (hexpected : expected.toNat < 128 ∧ expected ≠ '\x00')
    (hother : ∀ rest, text ≠ expected :: rest) : scanner.eat? expected = none := by
  refine if_neg fun heat => ?_
  obtain ⟨rest, hrest⟩ := hstands.of_current heat.2 hexpected
  exact hother rest hrest

theorem cutPair_of_ne {second : Char} {pair single : Verdict} (hother : ∀ rest, text ≠ second :: rest) :
    cutPair second pair single text = (1, single) := by
  cases text with
  | nil => rfl
  | cons d rest => exact if_neg fun hsame => hother rest (congrArg (· :: rest) (eq_of_beq hsame))

theorem agrees_both {second : Char} (hstart : Stands total ⟨c :: second :: text, line⟩ start) (hc : c.toNat < 128 ∧ c ≠ '\n')
    (hsecond : second.toNat < 128 ∧ second ≠ '\x00' ∧ second ≠ '\n') (kind : TokenKind) :
    Agrees total (c :: second :: text) line (2, .ok kind) (make? start start.advance.advance kind) := by
  refine @agrees_make? total line [c, second] text start start.advance.advance 2 rfl hstart ?_ kind
  rw [List.count_eq_zero.2 (by simpa using ⟨hc.2.symm, hsecond.2.2.symm⟩)]
  exact (hstart.advance hc.1).advance hsecond.1

section

variable (hstart : Stands total ⟨c :: text, line⟩ start) (hc : c.toNat < 128 ∧ c ≠ '\n')

include hstart hc

theorem agrees_single (kind : TokenKind) : Agrees total (c :: text) line (1, .ok kind) (make? start start.advance kind) := by
  refine @agrees_make? total line [c] text start start.advance 1 rfl hstart ?_ kind
  rw [List.count_eq_zero.2 (by simpa using hc.2.symm)]
  exact hstart.advance hc.1

theorem agrees_unexpected : Agrees total (c :: text) line (1, .error .unexpectedCharacter)
    (some (start.advance.fail .unexpectedCharacter)) := by
  refine @agrees_fail total line [c] text start.advance 1 rfl ?_ _
  rw [List.count_eq_zero.2 (by simpa using hc.2.symm)]
  exact hstart.advance hc.1

variable {second : Char} (hsecond : second.toNat < 128 ∧ second ≠ '\x00' ∧ second ≠ '\n')

include hsecond

/-- Two characters or one. -/
theorem agrees_pair {pair : TokenKind} {single : Verdict} {alone : Option (Token × Scanner)}
    (halone : (∀ rest, text ≠ second :: rest) → Agrees total (c :: text) line (1, single) alone) :
    Agrees total (c :: text) line (cutPair second (.ok pair) single text)
      (match start.advance.eat? second with
        | some stop => make? start stop pair
        | none => alone) := by
  have hnext := hstart.advance hc.1
  by_cases hpair : ∃ rest, text = second :: rest
  · obtain ⟨rest, rfl⟩ := hpair
    rw [hnext.eat?_cons hsecond.1, cutPair, if_pos (beq_self_eq_true second)]
    exact agrees_both hstart hc hsecond pair
  · have hother (rest : List Char) : text ≠ second :: rest := fun heq => hpair ⟨rest, heq⟩
    rw [hnext.eat?_of_ne ⟨hsecond.1, hsecond.2.1⟩ hother, cutPair_of_ne hother]
    exact halone hother

end

/-! ### Whole tokens -/

/-- Behind the first bytes of a character, the scanner finds the end of it. -/
theorem stands_eatWhile {wide : List UInt8} (hwide : ∀ byte ∈ wide, isContinuation byte = true)
    (hrest : scanner.rest = wide ++ bytesOf text) (hposition : scanner.position + scanner.rest.length = total) :
    Stands total ⟨text, scanner.line⟩ (scanner.eatWhile fun c => '\x80' ≤ c && c < '\xC0') := by
  have htest : (fun byte => decide ('\x80' ≤ Char.ofUInt8 byte) && decide (Char.ofUInt8 byte < '\xC0')) = isContinuation := by
    funext byte
    rw [Bool.eq_iff_iff, isContinuation_iff, Bool.and_eq_true, decide_eq_true_iff, decide_eq_true_iff]
    exact and_congr_right fun _ => Nat.lt_succ_iff
  have hbehind : (bytesOf text).dropWhile isContinuation = bytesOf text := by
    have hboundary := (⟨rfl, rfl, Nat.zero_add _⟩ : Stands (bytesOf text).length ⟨text, 0⟩ ⟨bytesOf text, 0, 0⟩).atBoundary
    rw [atBoundary, Bool.not_eq_true'] at hboundary
    cases hbytes : bytesOf text with
    | nil => rfl
    | cons byte more =>
      rw [hbytes, List.headD_cons] at hboundary
      rw [List.dropWhile_cons, if_neg (by rw [hboundary]; decide)]
  have hlength := congrArg List.length (@List.takeWhile_append_dropWhile _ isContinuation scanner.rest)
  simp only [eatWhile, htest]
  refine ⟨?_, rfl, ?_⟩
  · rw [hrest, List.dropWhile_append_of_pos hwide, hbehind]
  · rw [List.length_append] at hlength
    dsimp only
    omega

/-- The characters that begin a token and are neither letters nor digits. -/
def signs : List Char :=
  ['"', '(', ')', '\x7b', '\x7d', '[', ']', ';', ',', '.', ':', '?', '%', '+', '*', '/', '=', '!', '<', '>', '-', '&', '|']

def begins (c : Char) : Bool := isNameStart c || c.isDigit || signs.contains c

theorem narrow_of_begins (hbegins : begins c = true) : c.toNat < 128 := by
  have hsigns : signs.all (·.toNat < 128) = true := by decide
  rw [begins, Bool.or_eq_true, Bool.or_eq_true, List.contains_iff_mem] at hbegins
  rcases hbegins with (hname | hdigit) | hsign
  · exact narrow_of_isNamePart (isNamePart_of_isNameStart hname)
  · exact narrow_of_isNamePart (isNamePart_of_isDigit hdigit)
  · exact of_decide_eq_true (List.all_eq_true.1 hsigns c hsign)

section

variable (hbegins : begins c = false)

include hbegins

theorem not_begins : ¬ isNameStart c = true ∧ ¬ c.isDigit = true ∧ c ∉ signs := by
  rw [begins, Bool.or_eq_false_iff, Bool.or_eq_false_iff] at hbegins
  simpa only [Bool.not_eq_true, ← List.contains_iff_mem, and_assoc] using hbegins

theorem cut_unexpected (rest : List Char) : cut c rest = (1, .error .unexpectedCharacter) := by
  obtain ⟨hname, hdigit, hsign⟩ := not_begins hbegins
  unfold cut
  rw [if_neg hname, if_neg hdigit]
  split
  case h_24 => rfl
  all_goals exact absurd (by decide) hsign

end

theorem scan?_unexpected (hunread : start.rest ≠ []) (hbegins : begins start.current = false) :
    start.scan? = some ((start.advance.eatWhile fun c => '\x80' ≤ c && c < '\xC0').fail .unexpectedCharacter) := by
  obtain ⟨hname, hdigit, hsign⟩ := not_begins hbegins
  unfold scan?
  rw [if_neg hunread]
  dsimp only
  rw [if_neg hname, if_neg hdigit]
  split
  case h_24 => rfl
  all_goals
    rename_i hcurrent
    exact absurd (by rw [hcurrent]; decide) hsign

theorem agrees_scan? (hstart : Stands total ⟨c :: text, line⟩ start) (hfeed : c ≠ '\n') :
    Agrees total (c :: text) line (cut c text) start.scan? := by
  have hunread := mt hstart.rest_eq_nil_iff.1 (List.cons_ne_nil _ _)
  cases hbegins : begins c with
  | true =>
    have hc := narrow_of_begins hbegins
    have hcurrent := hstart.current_narrow hc
    have hnext := hstart.advance hc
    unfold scan? cut
    rw [if_neg hunread]
    simp only [hcurrent]
    by_cases hname : isNameStart c = true
    · rw [if_pos hname, if_pos hname]
      exact agrees_name? hstart hname
    · rw [if_neg hname, if_neg hname]
      by_cases hdigit : c.isDigit = true
      · rw [if_pos hdigit, if_pos hdigit]
        exact agrees_number? hstart hdigit
      · rw [if_neg hdigit, if_neg hdigit]
        split
        case h_1 =>
          have hcloses := closes_string text 1 hnext
          cases hclose : closeString text 1 with
          | some close =>
            obtain ⟨body, rest, rfl, rfl, hclosed, hstop⟩ := hclose ▸ hcloses
            rw [if_pos hclosed]
            exact @agrees_make? total line ('"' :: body) rest start start.advance.string.2 _ (Nat.add_comm ..) hstart hstop .string
          | none =>
            obtain ⟨hopen, hstop⟩ := hclose ▸ hcloses
            rw [if_neg (by rw [hopen]; decide)]
            have hfail := @agrees_fail total line ('"' :: text) [] start.advance.string.2 _ rfl hstop .unterminatedString
            rwa [List.append_nil] at hfail
        case h_21 =>
          split
          · next rest =>
            rw [hnext.eat?_cons (by decide)]
            exact agrees_both hstart ⟨hc, hfeed⟩ (by decide) .arrow
          · next hother =>
            rw [hnext.eat?_of_ne (by decide) hother]
            exact agrees_pair hstart ⟨hc, hfeed⟩ (by decide) fun _ => agrees_single hstart ⟨hc, hfeed⟩ _
        case h_22 | h_23 => exact agrees_pair hstart ⟨hc, hfeed⟩ (by decide) fun _ => agrees_unexpected hstart ⟨hc, hfeed⟩
        case h_24 => simp_all [begins, signs]
        all_goals first
          | exact agrees_single hstart ⟨hc, hfeed⟩ _
          | exact agrees_pair hstart ⟨hc, hfeed⟩ (by decide) fun _ => agrees_single hstart ⟨hc, hfeed⟩ _
  | false =>
    obtain ⟨lead, more, hencode, hmore⟩ := encode_lead c
    have hrest : start.rest = lead :: (more ++ bytesOf text) := by rw [hstart.rest, bytesOf_cons, hencode]; rfl
    have hadvance : start.advance = ⟨more ++ bytesOf text, start.position + 1, start.line⟩ := by rw [Scanner.advance, hrest]
    have hposition := hstart.position
    rw [hrest, List.length_cons] at hposition
    have hstop := @stands_eatWhile total text start.advance more hmore (by rw [hadvance]) (by rw [hadvance]; dsimp only; omega)
    have hcurrent := (hstart.holds_current (uniform_of_false fun _ => narrow_of_begins)).trans hbegins
    rw [cut_unexpected hbegins, scan?_unexpected hunread hcurrent]
    refine @agrees_fail total line [c] text _ 1 rfl ?_ _
    rw [List.count_eq_zero.2 (by simpa using hfeed.symm)]
    rw [hadvance] at hstop ⊢
    exact hstart.line ▸ hstop

theorem head_skip_ne (gap : Gap) {rest : List Char} (hskip : skip gap text = c :: rest) : c ≠ '\n' := by
  fun_induction skip gap text with
  | case7 text _ _ _ hfeed =>
    rintro rfl
    exact hfeed rest hskip
  | case8 | case11 => contradiction
  | case1 _ ih | case2 _ ih | case3 _ ih | case4 _ ih | case5 _ ih | case6 _ ih | case9 _ ih | case10 _ _ _ ih | case12 _ ih
  | case13 _ _ _ ih => exact ih hskip

theorem Stands.skipTrivia {cursor : Cursor} (hstands : Stands total cursor scanner) :
    Stands total cursor.skipTrivia scanner.skipTrivia :=
  skipTrivia_of_passes .blank hstands

/-- The scanner reads the token that the cursor reads, and stands where the cursor does behind it. -/
theorem Stands.next? {cursor : Cursor} (hstands : Stands total cursor scanner) :
    ∃ stop, scanner.next? = some (cursor.next.1, stop) ∧ Stands total cursor.next.2 stop := by
  have hstart := hstands.skipTrivia
  rw [Scanner.next?, Cursor.next, Cursor.scan]
  split
  · next hend =>
    have hend' : scanner.skipTrivia.rest = [] := by rw [hstart.rest, hend]; rfl
    have hslice : slice? scanner.skipTrivia scanner.skipTrivia = some "" :=
      @slice?_eq total _ [] _ scanner.skipTrivia scanner.skipTrivia _ hstart hstart
    refine ⟨scanner.skipTrivia, ?_, hstart⟩
    rw [scan?, if_pos hend', make?, hslice, hstart.line]
    rfl
  · next first more hmore =>
    have hstart : Stands total ⟨first :: more, cursor.skipTrivia.line⟩ scanner.skipTrivia := hmore ▸ hstart
    exact agrees_scan? hstart (head_skip_ne .blank hmore)

theorem stands_ofText (source : String) : Stands source.toUTF8.size (.ofText source) (ofText source) := by
  refine ⟨?_, rfl, Nat.zero_add _⟩
  have hbytes := toList_toByteArray source.toList
  rwa [String.ofList_toList] at hbytes

end Scanner

end NanScript
