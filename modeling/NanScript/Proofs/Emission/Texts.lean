import Mathlib.Data.List.TakeWhile
import NanScript.Machine.Text
import NanScript.Proofs.Emission.Outcome
import NanScript.Proofs.Grammar.Fine
import NanScript.Proofs.Tiling
import NanScript.Proofs.Value

/-!
# String literals at run time

A string literal is laid down in the code as the UTF-8 bytes of the text that it denotes, closed by a zero. At run time a string
ends at its first zero byte, so what arrives is the text up to its first NUL.
-/

namespace NanScript

namespace Text

/-- A text up to its first NUL. -/
def beforeNul (text : String) : String := String.ofList (text.toList.takeWhile (· ≠ '\x00'))

theorem utf8_injective : Function.Injective utf8 := fun _ _ hsame =>
  String.toByteArray_inj.1 (ByteArray.ext (Array.toList_inj.1 hsame))

theorem takeWhile_utf8 (text : String) : (utf8 text).takeWhile (· ≠ 0) = utf8 (beforeNul text) := by
  rw [beforeNul, ← String.ofList_toList (s := text), String.toList_ofList]
  generalize text.toList = list
  rw [show utf8 (String.ofList list) = _ from toList_utf8Of list, show utf8 (String.ofList _) = _ from toList_utf8Of _]
  induction list with
  | nil => rfl
  | cons c rest ih =>
    by_cases hc : c = '\x00'
    · subst hc
      rfl
    · have hwhole : ∀ byte ∈ String.utf8EncodeChar c, decide (byte ≠ 0) = true := by
        have huniform : Uniform (· == '\x00') := uniform_of_false fun c hnul => by rw [eq_of_beq hnul]; decide
        refine fun byte hbyte => decide_eq_true fun hzero => hc (eq_of_beq ((holds_of_mem_encode huniform hbyte).symm.trans ?_))
        rw [hzero]
        rfl
      rw [List.flatMap_cons, List.takeWhile_append_of_pos hwhole, ih, List.takeWhile_cons, if_pos (decide_eq_true hc),
        List.flatMap_cons]

theorem beforeNul_eq_iff {text : String} : beforeNul text = text ↔ '\x00' ∉ text.toList := by
  rw [beforeNul, ← String.toList_inj, String.toList_ofList, List.takeWhile_eq_self_iff]
  simp only [decide_eq_true_eq]
  exact ⟨fun hall hmem => hall _ hmem rfl, fun hmem c hc hsame => hmem (hsame ▸ hc)⟩

end Text

namespace Machine

/-- The bytes lie at an address of the program's data. -/
structure Lays (machine : Machine) (address : Nat) (bytes : List UInt8) : Prop where
  there : ∃ front back, machine.data.toList = front ++ (bytes ++ back) ∧ address = dataStart + front.length
  bound : address < Heap.addressBound

theorem bytesUntilZero_eq (data : Array UInt8) {count offset : Nat} (hcount : offset + count = data.size) :
    bytesUntilZero (data.getD · 0) count offset = (data.toList.drop offset).takeWhile (· ≠ 0) := by
  induction count generalizing offset with
  | zero =>
    rw [List.drop_of_length_le (by rw [Array.length_toList]; omega)]
    rfl
  | succ count ih =>
    have hoffset : offset < data.toList.length := by
      rw [Array.length_toList]
      omega
    rw [bytesUntilZero, ih (by omega), List.drop_eq_getElem_cons hoffset, List.takeWhile_cons, Array.getD_eq_getD_getElem?,
      ← Array.getElem?_toList, List.getElem?_eq_getElem hoffset, Option.getD_some]
    by_cases hzero : data.toList[offset] = 0
    · rw [if_pos hzero, if_neg (by simpa using hzero)]
    · rw [if_neg hzero, if_pos (by simpa using hzero)]

variable {machine : Machine} {address other : Nat} {text text' : String}

theorem Lays.kind {bytes : List UInt8} (hlays : machine.Lays address bytes) : (Value.ofAddress .str address).kind = .str address :=
  Value.kind_eq_str.2 ⟨Value.tag?_ofAddress _ _, by rw [Value.payload_ofAddress, Nat.mod_eq_of_lt hlays.bound]⟩

theorem Lays.nonzero {bytes : List UInt8} (hlays : machine.Lays address bytes) : address ≠ 0 := by
  obtain ⟨_, _, -, haddress⟩ := hlays.there
  have hstart : 0 < dataStart := by decide
  omega

section

variable (hlays : machine.Lays address (Text.utf8 text ++ [0]))

include hlays

theorem Lays.text_eq : machine.text address = Text.utf8 (Text.beforeNul text) := by
  obtain ⟨⟨front, back, hdata, rfl⟩, -⟩ := hlays
  have hsize : front.length < machine.data.size := by
    rw [← Array.length_toList, hdata, List.length_append, List.length_append, List.length_append, List.length_singleton]
    omega
  rw [Machine.text, if_pos (by simp [hsize]), Nat.add_sub_cancel_left, bytesUntilZero_eq _ (by omega), hdata,
    List.drop_left' rfl, List.append_assoc, List.takeWhile_append, ← Text.takeWhile_utf8]
  split
  · next hlength =>
    rw [(List.takeWhile_prefix _).eq_of_length hlength]
    exact List.append_nil _
  · rfl

theorem Lays.textOf? : machine.textOf? (Value.ofAddress .str address) = some (Text.utf8 (Text.beforeNul text)) := by
  rw [Machine.textOf?, hlays.kind, ← hlays.text_eq]
  exact if_neg hlays.nonzero

theorem Lays.equals (hlays' : machine.Lays other (Text.utf8 text' ++ [0])) :
    machine.equals (Value.ofAddress .str address) (Value.ofAddress .str other) = true ↔
      Text.beforeNul text = Text.beforeNul text' := by
  rw [Machine.equals, hlays.kind, hlays'.kind]
  dsimp only
  rw [hlays.textOf?, hlays'.textOf?, beq_iff_eq, Option.some.injEq, Text.utf8_injective.eq_iff]

theorem Lays.render : machine.render (Value.ofAddress .str address) = Text.utf8 (Text.beforeNul text) := by
  have hplain : (Value.ofAddress .str address).plainText? = none := by
    rw [Value.plainText?, hlays.kind]
    exact if_neg hlays.nonzero
  rw [Machine.render, hplain, hlays.textOf?]
  rfl

end

end Machine

theorem Run.print_run (value : Value) (closing : List UInt8) (machine : Machine) : print value closing machine =
    .ok .null { machine with printed := machine.printed ++ (machine.render value ++ closing).toArray } := rfl

/-- Whatever text is in a program is laid down in its code. -/
theorem each_speaks_of_assemble {program : List Tree} {assembly : Assembly} {globals : List String}
    (hassemble : assemble program = .ok assembly) (hprogram : ∀ tree ∈ program, tree.IsDeclaration globals) :
    ∀ tree ∈ program, tree.Each (Tree.Speaks fun content => ∃ number, .text number (Text.utf8 content) ∈ assembly.code) := by
  obtain ⟨outline, plans, hplanned⟩ := planned_of_assemble hassemble
  refine hplanned.each hprogram ?_ (fun _ _ _ _ _ hstr => (nomatch hstr)) fun _ _ _ _ hshape hown => ⟨?_, ?_⟩
  · rintro node houter note content rfl
    exact houter.elim
  · intro note content hstr
    cases hshape with
    | @str _ _ _ _ number =>
      obtain ⟨-, rfl⟩ := Tree.str.inj hstr
      exact ⟨number + 1, hown (by simp [Code.text])⟩
    | _ => contradiction
  · intro _ _ _ _ _ hdirect _ _ hstr
    obtain ⟨_, rfl, -⟩ := Site.direct_eq_some hdirect
    contradiction

/-- So is whatever text a string literal denotes. -/
theorem exists_text_of_token {source : String} {assembly : Assembly} (hsilent : (parse source).errors = [])
    (hassemble : assemble (parse source).program = .ok assembly) {token : Token} (htoken : token ∈ tokens source)
    (hkind : token.kind = .string) : ∃ number, .text number (Text.utf8 (Literal.unescape token.lexeme)) ∈ assembly.code := by
  obtain ⟨program, hwords, hgrammatical, -, htrees⟩ := parse_sound hsilent
  have hspeaks := each_speaks_of_assemble hassemble (isDeclaration_of_parse source)
  have hbare := List.forall_mem_map.2 fun tree htree => (Tree.each_speaks_bare tree).2 (hspeaks tree htree)
  rw [htrees] at hbare
  have hfine := (Grammar.Program.fine_words hgrammatical Scope.initial).2 hbare
  have hword : token.word ∈ program.words := by
    have hmem : token.word ∈ program.words ++ [Grammar.sign .eof] := hwords ▸ List.mem_map_of_mem htoken
    refine (List.mem_append.1 hmem).resolve_right fun hlast => ?_
    have heof := congrArg Grammar.Word.kind (List.mem_singleton.1 hlast)
    rw [show token.word.kind = .string from hkind] at heof
    contradiction
  simpa [Token.word_eq_open hkind rfl] using (hfine token.word hword).2 hkind

/-- The string literals of a text without reports are laid down in its code, each as the bytes of the text that it denotes. Wherever
these bytes are at run time, with a zero behind them, the string there is the text up to its first NUL: it is the whole text
exactly if there is none in it, two strings are equal if they are so far, and that is what is printed. -/
theorem string_literals_until_nul {source : String} {assembly : Assembly} (hsilent : (parse source).errors = [])
    (hassemble : assemble (parse source).program = .ok assembly) :
    ∀ first ∈ tokens source, ∀ second ∈ tokens source, first.kind = .string → second.kind = .string →
      let text := Literal.unescape first.lexeme
      let text' := Literal.unescape second.lexeme
      (∃ number, .text number (Text.utf8 text) ∈ assembly.code) ∧
      ∀ (machine : Machine) (address address' : Nat), machine.Lays address (Text.utf8 text ++ [0]) →
        machine.Lays address' (Text.utf8 text' ++ [0]) →
        machine.textOf? (.ofAddress .str address) = some (Text.utf8 (Text.beforeNul text)) ∧
        (machine.textOf? (.ofAddress .str address) = some (Text.utf8 text) ↔ '\x00' ∉ text.toList) ∧
        (Run.eq (.ofAddress .str address) (.ofAddress .str address') machine =
          .ok (.ofBool (Text.beforeNul text = Text.beforeNul text')) machine) ∧
        ∀ closing, Run.print (.ofAddress .str address) closing machine =
          .ok .null { machine with printed := machine.printed ++ (Text.utf8 (Text.beforeNul text) ++ closing).toArray } := by
  intro first hfirst second _ hkind _ text text'
  refine ⟨exists_text_of_token hsilent hassemble hfirst hkind, fun machine address address' hlays hlays' => ?_⟩
  refine ⟨hlays.textOf?, ?_, ?_, fun closing => ?_⟩
  · rw [hlays.textOf?, Option.some.injEq, Text.utf8_injective.eq_iff, Text.beforeNul_eq_iff]
  · have hequal : machine.equals (.ofAddress .str address) (.ofAddress .str address') =
        decide (Text.beforeNul text = Text.beforeNul text') := by
      rw [Bool.eq_iff_iff, hlays.equals hlays', decide_eq_true_iff]
    rw [← hequal]
    rfl
  · rw [Run.print_run, hlays.render]

set_option maxRecDepth 4000 in
/-- One literal is the other up to its NUL. -/
theorem string_literals_until_nul_escape :
    let source := "var x = \"a\\0b\"; var y = \"a\";"
    let machine : Machine := { data := #[97, 0, 98, 0, 97, 0] }
    (parse source).errors = [] ∧ ∃ assembly, assemble (parse source).program = .ok assembly ∧
      (∃ number, .text number [97, 0, 98] ∈ assembly.code) ∧
      Run.eq (.ofAddress .str 0x800000000000) (.ofAddress .str 0x800000000004) machine = .ok (.ofBool true) machine := by
  intro source machine
  have hsilent : (parse source).errors = [] := by decide +kernel
  have hchecked : checked (parse source).program (fun _ => true) = true := by decide +kernel
  obtain ⟨assembly, hassemble, -⟩ := exists_of_checked hchecked
  have htokens : ∃ first ∈ tokens source, ∃ second ∈ tokens source, first.kind = .string ∧ second.kind = .string ∧
      Literal.unescape first.lexeme = "a\x00b" ∧ Literal.unescape second.lexeme = "a" := by decide +kernel
  obtain ⟨first, hfirst, second, hsecond, hkind, hkind', htext, htext'⟩ := htokens
  obtain ⟨hline, hruns⟩ := string_literals_until_nul hsilent hassemble first hfirst second hsecond hkind hkind'
  rw [htext] at hline hruns
  rw [htext'] at hruns
  obtain ⟨-, -, hequal, -⟩ := hruns machine 0x800000000000 0x800000000004 ⟨⟨[], [97, 0], by decide +kernel, rfl⟩, by decide⟩
    ⟨⟨[97, 0, 98, 0], [], by decide +kernel, rfl⟩, by decide⟩
  exact ⟨hsilent, assembly, hassemble, hline, hequal⟩

/-- Two literals with different texts are equal at run time, and neither is printed as a whole. -/
theorem different_texts_equal :
    let machine : Machine := { data := #[97, 0, 98, 0, 97, 0, 99, 0] }
    Literal.unescape "\"a\\0b\"" = "a\x00b" ∧ Literal.unescape "\"a\\0c\"" = "a\x00c" ∧
      machine.Lays 0x800000000000 (Text.utf8 "a\x00b" ++ [0]) ∧ machine.Lays 0x800000000004 (Text.utf8 "a\x00c" ++ [0]) ∧
      Run.eq (.ofAddress .str 0x800000000000) (.ofAddress .str 0x800000000004) machine = .ok (.ofBool true) machine ∧
      Run.print (.ofAddress .str 0x800000000000) [] machine = .ok .null { machine with printed := #[97] } := by
  intro machine
  have hfirst : machine.Lays 0x800000000000 (Text.utf8 "a\x00b" ++ [0]) := ⟨⟨[], [97, 0, 99, 0], by decide +kernel, rfl⟩, by decide⟩
  have hsecond : machine.Lays 0x800000000004 (Text.utf8 "a\x00c" ++ [0]) := ⟨⟨[97, 0, 98, 0], [], by decide +kernel, rfl⟩, by decide⟩
  have hequal := (hfirst.equals hsecond).2 (by decide +kernel)
  have hrender : machine.render (.ofAddress .str 0x800000000000) = [97] := hfirst.render.trans (by decide +kernel)
  refine ⟨by decide +kernel, by decide +kernel, hfirst, hsecond, ?_, ?_⟩
  · rw [← hequal]
    rfl
  · rw [Run.print_run, hrender]
    rfl

end NanScript
