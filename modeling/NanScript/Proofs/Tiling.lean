import NanScript.Proofs.Token

/-!
# Tokens tile their text

A reading is one token together with the bytes that the scanner passed over for it: from where the reading before it ended, by
way of where the token begins, to where it ends (`Reading`). Everything that is claimed of a reading follows from what
stands in front of the cursor that the scanner follows, which is kept from token to token: the characters read so far and those
still to be read make up the text, and the line is one more than the line feeds among the former (`Cursor.Within`).
-/

namespace NanScript

open List

/-! ### What may stand between tokens -/

/-- A blank or a comment that is closed. -/
inductive Filler : List Char → Prop where
  | blank {c : Char} (blank : c ∈ [' ', '\t', '\r', '\n']) : Filler [c]
  | line {body : List Char} (inside : '\n' ∉ body) : Filler ('/' :: '/' :: (body ++ ['\n']))
  | block {body : List Char} (inside : ¬['*', '/'] <:+: body) : Filler ('/' :: '*' :: (body ++ ['*', '/']))

/-- A comment that nothing closes. -/
inductive OpenComment : List Char → Prop where
  | line {body : List Char} (inside : '\n' ∉ body) : OpenComment ('/' :: '/' :: body)
  | block {body : List Char} (inside : ¬['*', '/'] <:+: body) : OpenComment ('/' :: '*' :: body)

/-- Blanks and comments. At the end of the text the last comment may be open. -/
def Trivia (atEnd : Prop) (text : List Char) : Prop :=
  ∃ (fillers : List (List Char)) (tail : List Char), (∀ filler ∈ fillers, Filler filler) ∧ text = fillers.flatten ++ tail ∧
    (tail = [] ∨ atEnd ∧ OpenComment tail)

namespace Trivia

variable {atEnd : Prop} {text : List Char}

theorem nil : Trivia atEnd [] := ⟨[], [], by simp, rfl, .inl rfl⟩

theorem cons {filler : List Char} (hfiller : Filler filler) (htext : Trivia atEnd text) : Trivia atEnd (filler ++ text) := by
  obtain ⟨fillers, tail, hfillers, rfl, htail⟩ := htext
  refine ⟨filler :: fillers, tail, forall_mem_cons.2 ⟨hfiller, hfillers⟩, ?_, htail⟩
  rw [flatten_cons, append_assoc]

theorem openComment (hend : atEnd) (htext : OpenComment text) : Trivia atEnd text :=
  ⟨[], text, by simp, rfl, .inr ⟨hend, htext⟩⟩

end Trivia

namespace Lexer

/-- What a scan of trivia passes over, by where it stands at the start. -/
def Skipped : Gap → List Char → List Char → Prop
  | .blank, text, rest => ∃ gap, text = gap ++ rest ∧ Trivia (rest = []) gap
  | .lineComment, text, rest => ∃ body, '\n' ∉ body ∧
      ((text = body ∧ rest = []) ∨ ∃ gap, text = body ++ '\n' :: (gap ++ rest) ∧ Trivia (rest = []) gap)
  | .blockComment, text, rest => ∃ body, ¬['*', '/'] <:+: body ∧
      ((text = body ∧ rest = []) ∨ ∃ gap, text = body ++ '*' :: '/' :: (gap ++ rest) ∧ Trivia (rest = []) gap)

variable {c : Char} {text rest : List Char}

theorem Skipped.blank (hblank : c ∈ [' ', '\t', '\r', '\n']) (hskipped : Skipped .blank text rest) :
    Skipped .blank (c :: text) rest := by
  obtain ⟨gap, rfl, hgap⟩ := hskipped
  exact ⟨c :: gap, rfl, hgap.cons (.blank hblank)⟩

theorem Skipped.openLine (hskipped : Skipped .lineComment text rest) : Skipped .blank ('/' :: '/' :: text) rest := by
  obtain ⟨body, hbody, ⟨rfl, rfl⟩ | ⟨gap, rfl, hgap⟩⟩ := hskipped
  · exact ⟨'/' :: '/' :: text, by simp, .openComment rfl (.line hbody)⟩
  · exact ⟨_, by simp, hgap.cons (.line hbody)⟩

theorem Skipped.openBlock (hskipped : Skipped .blockComment text rest) : Skipped .blank ('/' :: '*' :: text) rest := by
  obtain ⟨body, hbody, ⟨rfl, rfl⟩ | ⟨gap, rfl, hgap⟩⟩ := hskipped
  · exact ⟨'/' :: '*' :: text, by simp, .openComment rfl (.block hbody)⟩
  · exact ⟨_, by simp, hgap.cons (.block hbody)⟩

theorem Skipped.inLine (hc : c ≠ '\n') (hskipped : Skipped .lineComment text rest) :
    Skipped .lineComment (c :: text) rest := by
  obtain ⟨body, hbody, htext⟩ := hskipped
  refine ⟨c :: body, by simp [hbody, Ne.symm hc], ?_⟩
  rcases htext with ⟨rfl, hrest⟩ | ⟨gap, rfl, hgap⟩
  · exact .inl ⟨rfl, hrest⟩
  · exact .inr ⟨gap, rfl, hgap⟩

theorem Skipped.inBlock (hc : ∀ more, c = '*' → text = '/' :: more → False) (hskipped : Skipped .blockComment text rest)
    : Skipped .blockComment (c :: text) rest := by
  obtain ⟨body, hbody, htext⟩ := hskipped
  refine ⟨c :: body, fun hinfix => ?_, ?_⟩
  · rcases infix_cons_iff.1 hinfix with hprefix | hinfix
    · obtain ⟨more, hmore⟩ := hprefix
      obtain ⟨rfl, rfl⟩ := cons.inj hmore
      rcases htext with ⟨rfl, -⟩ | ⟨gap, rfl, -⟩
      · exact hc more rfl rfl
      · exact hc _ rfl rfl
    · exact hbody hinfix
  · rcases htext with ⟨rfl, hrest⟩ | ⟨gap, rfl, hgap⟩
    · exact .inl ⟨rfl, hrest⟩
    · exact .inr ⟨gap, rfl, hgap⟩

theorem skipped_skip (gap : Gap) (text : List Char) : Skipped gap text (skip gap text) := by
  fun_induction skip gap text with
  | case1 rest ih | case2 rest ih | case3 rest ih | case4 rest ih => exact ih.blank (by decide)
  | case5 rest ih => exact ih.openLine
  | case6 rest ih => exact ih.openBlock
  | case7 => exact ⟨[], rfl, .nil⟩
  | case8 => exact ⟨[], by simp, .inl ⟨rfl, rfl⟩⟩
  | case9 rest ih =>
    obtain ⟨gap, htext, hgap⟩ := ih
    exact ⟨[], by simp, .inr ⟨gap, congrArg _ htext, hgap⟩⟩
  | case10 c rest hc ih => exact ih.inLine hc
  | case11 => exact ⟨[], by simp, .inl ⟨rfl, rfl⟩⟩
  | case12 rest ih =>
    obtain ⟨gap, htext, hgap⟩ := ih
    exact ⟨[], by simp, .inr ⟨gap, congrArg _ (congrArg _ htext), hgap⟩⟩
  | case13 c rest hc ih => exact ih.inBlock hc

theorem skipLine_add_count (gap : Gap) (line : Nat) (text : List Char) :
    skipLine gap line text + (skip gap text).count '\n' = line + text.count '\n' := by
  fun_induction skipLine gap line text <;> simp_all [skip] <;> omega

end Lexer

/-! ### The cursor in the text -/

/-- The bytes of some characters. -/
def utf8Of (text : List Char) : ByteArray := (String.ofList text).toUTF8

theorem utf8Of_append (front back : List Char) : utf8Of (front ++ back) = utf8Of front ++ utf8Of back := by
  simp [utf8Of, String.toUTF8, String.ofList_append]

/-- The byte at which a cursor stands in the text that it goes through. -/
def Cursor.offset (source : String) (cursor : Cursor) : Nat := source.toUTF8.size - (utf8Of cursor.rest).size

/-- The cursor has come through the front of the text and counted its line feeds. -/
def Cursor.Within (source : String) (front : List Char) (cursor : Cursor) : Prop :=
  source.toList = front ++ cursor.rest ∧ cursor.line = 1 + front.count '\n'

namespace Cursor

open Lexer

variable {source : String} {front : List Char} {cursor : Cursor}

section

variable (hwithin : cursor.Within source front)

include hwithin

theorem Within.bytes : source.toUTF8 = utf8Of front ++ utf8Of cursor.rest := by
  rw [← utf8Of_append, ← hwithin.1, utf8Of, String.ofList_toList]

theorem Within.offset : cursor.offset source = (utf8Of front).size := by
  rw [Cursor.offset, hwithin.bytes, ByteArray.size_append, Nat.add_sub_cancel]

theorem Within.skipTrivia : ∃ gap, cursor.skipTrivia.Within source (front ++ gap) ∧
    Trivia (cursor.skipTrivia.rest = []) gap := by
  obtain ⟨gap, hrest, hgap⟩ := skipped_skip .blank cursor.rest
  refine ⟨gap, ⟨?_, ?_⟩, hgap⟩
  · rw [hwithin.1, append_assoc, Cursor.skipTrivia]
    exact congrArg _ hrest
  · have hline := skipLine_add_count .blank cursor.line cursor.rest
    have hcount := congrArg (count '\n') hrest
    rw [count_append] at hcount
    rw [hwithin.2] at hline
    rw [count_append]
    show skipLine .blank cursor.line cursor.rest = _
    rw [hwithin.2]
    omega

theorem Within.scan : ∃ text, cursor.scan.2.Within source (front ++ text) ∧ (cursor.rest ≠ [] → text ≠ []) ∧
    (cursor.scan.1.kind ≠ .error → cursor.scan.1.lexeme = String.ofList text) ∧
    cursor.scan.1.line = cursor.scan.2.line := by
  unfold Cursor.scan
  split
  · rename_i hrest
    exact ⟨[], by rwa [append_nil], fun hne => absurd hrest hne, fun _ => rfl, rfl⟩
  · rename_i first more hrest
    have hpositive := cut_pos first more
    generalize cut first more = found at hpositive ⊢
    obtain ⟨count, verdict⟩ := found
    have hpositive : 0 < count := hpositive
    refine ⟨(first :: more).take count, ⟨?_, ?_⟩, ?_, ?_, ?_⟩
    · rw [append_assoc, take_append_drop, ← hrest]
      exact hwithin.1
    · rw [count_append, ← Nat.add_assoc, ← hwithin.2]
    · intro _ hempty
      have hlength := congrArg length hempty
      rw [length_take, length_cons, length_nil] at hlength
      omega
    · intro hkind
      cases verdict with
      | ok kind => rfl
      | error problem => exact absurd rfl hkind
    · cases verdict <;> rfl

/-! ### Bytes -/

theorem Within.size_le : (utf8Of front).size ≤ source.toUTF8.size := by
  rw [hwithin.bytes, ByteArray.size_append]
  omega

theorem Within.isValid : String.Pos.Raw.IsValid source ⟨cursor.offset source⟩ := by
  refine String.Pos.Raw.isValid_iff_exists_append.2 ⟨String.ofList front, String.ofList cursor.rest, ?_, ?_⟩
  · rw [← String.ofList_append, ← hwithin.1, String.ofList_toList]
  · rw [hwithin.offset]
    rfl

/-- The bytes between two places are those of the characters between them. -/
theorem Within.extract {text : List Char} {behind : Cursor} (hbehind : behind.Within source (front ++ text)) :
    source.toUTF8.extract (cursor.offset source) (behind.offset source) = utf8Of text := by
  rw [hwithin.offset, hbehind.offset, hbehind.bytes, utf8Of_append, ByteArray.append_assoc, ByteArray.size_append]
  have hextract := ByteArray.extract_append_size_add (a := utf8Of front) (b := utf8Of text ++ utf8Of behind.rest) (i := 0)
    (j := (utf8Of text).size)
  rw [Nat.add_zero] at hextract
  rw [hextract]
  exact ByteArray.extract_append_eq_left rfl

end

end Cursor

theorem count_utf8EncodeChar (c : Char) : (String.utf8EncodeChar c).count 10 = if c = '\n' then 1 else 0 := by
  split
  · next hfeed =>
    subst hfeed
    rfl
  · next hother =>
    refine count_eq_zero.2 fun hmem => hother (bne_eq_false_iff_eq.1 ?_)
    rw [← holds_of_mem_encode Scanner.uniform_feed hmem]
    rfl

theorem toList_utf8Of (text : List Char) : (utf8Of text).data.toList = text.flatMap String.utf8EncodeChar := toList_toByteArray text

theorem size_utf8Of_pos {text : List Char} (hnonempty : text ≠ []) : 0 < (utf8Of text).size := by
  obtain ⟨c, rest, rfl⟩ := exists_cons_of_ne_nil hnonempty
  have hlength := congrArg length (toList_utf8Of (c :: rest))
  rw [Array.length_toList, ByteArray.size_data, flatMap_cons, length_append, String.length_utf8EncodeChar] at hlength
  have hpositive := c.utf8Size_pos
  omega

theorem count_utf8Of (text : List Char) : (utf8Of text).data.toList.count 10 = text.count '\n' := by
  rw [toList_utf8Of]
  induction text with
  | nil => rfl
  | cons c rest ih =>
    rw [flatMap_cons, count_append, ih, count_utf8EncodeChar, count_cons, Nat.add_comm]
    simp only [beq_iff_eq]

/-! ### Readings -/

/-- One step of scanning: the token, the byte at which the step begins, and those at which the token begins and ends. -/
structure Reading where
  token : Token
  origin : Nat
  start : Nat
  stop : Nat

/-- The place after some tokens have been read. -/
def Cursor.after (cursor : Cursor) : Nat → Cursor
  | 0 => cursor
  | count + 1 => cursor.next.2.after count

/-- What a cursor reads next. -/
def Cursor.reading (source : String) (cursor : Cursor) : Reading :=
  ⟨cursor.next.1, cursor.offset source, cursor.skipTrivia.offset source, cursor.next.2.offset source⟩

namespace Scanner

/-- The place after some tokens have been read. -/
def after? (scanner : Scanner) : Nat → Option Scanner
  | 0 => some scanner
  | count + 1 => do (← scanner.next?).2.after? count

variable {total : Nat} {source : String} {cursor : Cursor} {scanner : Scanner}

theorem Stands.after? (hstands : Stands total cursor scanner) (count : Nat) :
    ∃ stop, scanner.after? count = some stop ∧ Stands total (cursor.after count) stop := by
  induction count generalizing cursor scanner with
  | zero => exact ⟨scanner, rfl, hstands⟩
  | succ count ih =>
    obtain ⟨next, hnext, hbehind⟩ := hstands.next?
    obtain ⟨stop, hstop, hafter⟩ := ih hbehind
    refine ⟨stop, ?_, hafter⟩
    rw [Scanner.after?, hnext]
    exact hstop

theorem Stands.offset (hstands : Stands source.toUTF8.size cursor scanner) : scanner.position = cursor.offset source := by
  have hlength := congrArg length (toList_toByteArray cursor.rest)
  have hposition := hstands.position
  rw [Array.length_toList, ByteArray.size_data] at hlength
  rw [hstands.rest, ← hlength] at hposition
  exact Nat.eq_sub_of_add_eq hposition

end Scanner

/-- What is right for a reading, the last one or another. -/
structure Reading.Right (source : String) (last : Prop) (reading : Reading) : Prop where
  eof : reading.token.kind = .eof ↔ last
  ordered : reading.origin ≤ reading.start ∧ reading.start ≤ reading.stop ∧ reading.stop ≤ source.toUTF8.size
  nonempty : ¬last → reading.start < reading.stop
  ending : last → reading.start = source.toUTF8.size
  boundaries : String.Pos.Raw.IsValid source ⟨reading.start⟩ ∧ String.Pos.Raw.IsValid source ⟨reading.stop⟩
  trivia : ∃ gap, source.toUTF8.extract reading.origin reading.start = utf8Of gap ∧ Trivia last gap
  lexeme : reading.token.kind ≠ .error → reading.token.lexeme.toUTF8 = source.toUTF8.extract reading.start reading.stop
  line : reading.token.line = 1 + (source.toUTF8.extract 0 reading.stop).data.toList.count 10

namespace Cursor

variable {source : String} {front : List Char} {cursor : Cursor}

theorem Within.next (hwithin : cursor.Within source front) : ∃ more, cursor.next.2.Within source (front ++ more) := by
  obtain ⟨gap, hstart, -⟩ := hwithin.skipTrivia
  obtain ⟨text, hstop, -⟩ := hstart.scan
  exact ⟨gap ++ text, by rwa [← append_assoc]⟩

theorem Within.after (hwithin : cursor.Within source front) (count : Nat) :
    ∃ more, (cursor.after count).Within source (front ++ more) := by
  induction count generalizing cursor front with
  | zero => exact ⟨[], by rwa [append_nil]⟩
  | succ count ih =>
    obtain ⟨more, hnext⟩ := hwithin.next
    obtain ⟨rest, hafter⟩ := ih hnext
    exact ⟨more ++ rest, by rwa [← append_assoc]⟩

theorem Within.right (hwithin : cursor.Within source front) :
    Reading.Right source (cursor.skipTrivia.rest = []) (cursor.reading source) := by
  unfold reading
  obtain ⟨gap, hstart, hgap⟩ := hwithin.skipTrivia
  obtain ⟨text, hstop, hnonempty, hlexeme, hline⟩ := hstart.scan
  have hstop : cursor.next.2.Within source (front ++ gap ++ text) := hstop
  refine ⟨?_, ?_, ?_, ?_, ⟨hstart.isValid, hstop.isValid⟩, ⟨gap, hwithin.extract hstart, hgap⟩, ?_, ?_⟩
  · constructor
    · intro heof
      exact Decidable.not_not.1 fun hunread => scan_kind_ne_eof hunread heof
    · exact scan_kind_eof
  · simp only [hwithin.offset, hstart.offset, hstop.offset, utf8Of_append, ByteArray.size_append]
    have hle := hstop.size_le
    rw [utf8Of_append, utf8Of_append, ByteArray.size_append, ByteArray.size_append] at hle
    omega
  · intro hunread
    have hpositive := size_utf8Of_pos (hnonempty hunread)
    simp only [hstart.offset, hstop.offset, utf8Of_append _ text, ByteArray.size_append]
    omega
  · intro hread
    rw [hstart.offset, hstart.bytes, hread, ByteArray.size_append]
    rfl
  · intro hkind
    rw [hstart.extract hstop]
    exact congrArg String.toUTF8 (hlexeme hkind)
  · have hbytes : source.toUTF8.extract 0 (cursor.next.2.offset source) = utf8Of (front ++ gap ++ text) := by
      rw [hstop.offset, hstop.bytes]
      exact ByteArray.extract_append_eq_left rfl
    rw [hbytes, count_utf8Of]
    exact hline.trans hstop.2

end Cursor

end NanScript
