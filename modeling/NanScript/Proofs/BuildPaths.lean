import Mathlib.Data.List.Basic
import NanScript.Options

/-!
# The files of a build are apart

The paths that are made from that of the source differ from it and from each other, and already the characters of their names do.
Where an extension is put behind a path there are more of them, and they end with it; where it is replaced, what stands before it
stays. A source whose name is two dots and an extension is apart: without the extension the two dots lead to the directory above,
and all paths are that one.
-/

namespace NanScript

open List

namespace Path

variable {front stem extension word : List Char} {path : Path}

/-! ### Spellings -/

/-- The pieces that count for something, the first of them at position `start`. -/
def named (start : Nat) (all : List (List Char)) : List (List Char) :=
  ((all.zipIdx start).filter fun (piece, position) => !(piece.isEmpty || (piece == ['.'] && position != 0))).map Prod.fst

/-- The names, one behind the other. -/
def spelling (characters : List Char) : List Char := (named 0 (pieces characters)).flatten

theorem spelling_of_same {a b : Path} (hsame : a.same b = true) : spelling a.text.toList = spelling b.text.toList := by
  have hnames (path : Path) : path.names = (named 0 (pieces path.text.toList)).map String.ofList := by
    simp [names, named]
  rw [same, hnames, hnames, Bool.and_eq_true, beq_iff_eq, beq_iff_eq] at hsame
  exact congrArg flatten (map_injective_iff.2 (fun _ _ => String.ofList_inj.1) hsame.2)

theorem named_append (start : Nat) (first second : List (List Char)) :
    named start (first ++ second) = named start first ++ named (start + first.length) second := by
  simp [named, zipIdx_append]

theorem pieces_ne_nil (characters : List Char) : pieces characters ≠ [] := by
  fun_cases pieces characters <;> simp

theorem pieces_slash (characters rest : List Char) : pieces (characters ++ '/' :: rest) = pieces characters ++ pieces rest := by
  fun_induction pieces characters <;> simp_all [pieces, pieces_ne_nil]

/-- Characters without a slash go to the last piece. -/
theorem exists_pieces (characters : List Char) :
    ∃ before last, ∀ word, '/' ∉ word → pieces (characters ++ word) = before ++ [last ++ word] := by
  induction characters with
  | nil =>
    refine ⟨[], [], fun word hplain => ?_⟩
    rw [nil_append]
    fun_induction pieces word <;> simp_all
  | cons c rest ih =>
    obtain ⟨before, last, hpieces⟩ := ih
    by_cases hslash : c = '/'
    · exact ⟨[] :: before, last, fun word hplain => by simp [hslash, pieces, hpieces word hplain]⟩
    · cases before with
      | nil => exact ⟨[], c :: last, fun word hplain => by simp [pieces, hpieces word hplain]⟩
      | cons first before =>
        exact ⟨(c :: first) :: before, last, fun word hplain => by simp [pieces, hpieces word hplain]⟩

/-- A word is spelled out where it is put behind a path, unless it counts for nothing there. -/
theorem exists_spelling (characters : List Char) : ∃ base, ∀ word, '/' ∉ word →
    spelling (characters ++ word) <+: base ++ word ∧
      (word ≠ [] → word ≠ ['.'] → spelling (characters ++ word) = base ++ word) := by
  obtain ⟨before, last, hpieces⟩ := exists_pieces characters
  refine ⟨(named 0 before).flatten ++ last, fun word hplain => ?_⟩
  rw [spelling, hpieces word hplain, named_append, flatten_append, append_assoc]
  refine ⟨(prefix_append_right_inj _).2 ?_, fun hempty hdot => ?_⟩
  · simp only [named, zipIdx_singleton, filter_cons, filter_nil]
    split <;> simp
  · have hlast : last ++ word ≠ [] ∧ last ++ word ≠ ['.'] := by
      cases last <;> simp_all
    simp [named, hlast]

/-- What is dropped from the end of a path counts for nothing. -/
theorem spelling_dropTrailing (characters : List Char) :
    spelling (dropTrailing characters).reverse = spelling characters.reverse := by
  fun_induction dropTrailing characters with
  | case1 | case4 => rfl
  | case2 rest _ ih =>
    rw [ih, reverse_cons, spelling, spelling, pieces_slash, named_append]
    simp [pieces, named]
  | case3 rest ih =>
    rw [ih, reverse_cons, reverse_cons, reverse_cons, append_assoc]
    simp only [spelling, cons_append, nil_append, pieces_slash, named_append]
    simp [pieces, named, pieces_ne_nil]

/-! ### Extensions -/

/-- A path with an extension, as what stands before the last name, the stem of that name, and the extension. -/
structure Extended (path : Path) (front stem extension : List Char) : Prop where
  extension_eq : path.extension? = some extension
  fileName_eq : path.fileName? = some (stem ++ '.' :: extension)
  trimmed : dropTrailing path.text.toList.reverse = extension.reverse ++ '.' :: (stem.reverse ++ front.reverse)
  directory : ∀ c ∈ front.getLast?, c = '/'
  plain : '/' ∉ stem ++ '.' :: extension
  dotless : '.' ∉ extension
  stem_ne_nil : stem ≠ []
  ne_dots : stem ++ '.' :: extension ≠ ['.', '.']

/-- A word without a mark, and what follows from the mark on. -/
theorem exists_of_takeWhile (mark : Char) (backward : List Char) : ∃ first second, backward = first ++ second ∧
    backward.takeWhile (· != mark) = first ∧ backward.dropWhile (· != mark) = second ∧ mark ∉ first ∧ ∀ c ∈ second.head?, c = mark := by
  refine ⟨_, _, takeWhile_append_dropWhile.symm, rfl, rfl, fun hmem => ?_, fun c hc => ?_⟩
  · simpa using all_eq_true.1 all_takeWhile _ hmem
  · have hhead := head?_dropWhile_not (· != mark) backward
    rw [Option.mem_def.1 hc] at hhead
    simpa using hhead

theorem exists_extended (hextension : path.extension? = some extension) : ∃ front stem, path.Extended front stem extension := by
  obtain ⟨name, hfile, hdot⟩ := Option.bind_eq_some_iff.1 hextension
  have hname := hfile
  obtain ⟨last, front, hall, hlast, hfront, hslash, hdirectory⟩ := exists_of_takeWhile '/' (dropTrailing path.text.toList.reverse)
  simp only [fileName?, splitLast, hlast, Option.ite_none_left_eq_some, Bool.or_eq_true, decide_eq_true_eq, not_or,
    Option.some.injEq] at hname
  obtain ⟨hmeaning, rfl⟩ := hname
  obtain ⟨ending, stem, hname, hending, hstem, hdotless, hmark⟩ := exists_of_takeWhile '.' last
  simp only [splitDot, reverse_reverse, hending, hstem] at hdot
  split at hdot
  · cases hdot
  · cases hdot
  · rename_i c stem hsplit
    cases hdot
    obtain rfl : c = '.' := hmark c rfl
    refine ⟨front.reverse, stem.reverse, hextension, by simpa [hname] using hfile, ?_, ?_, ?_, ?_, ?_, ?_⟩
    · rw [hall, hname]
      simp
    · simpa using hdirectory
    · simp_all
    · simpa using hdotless
    · rintro hempty
      simp_all
    · intro hdots
      simp_all

theorem takeWhile_append {mark : Char} {first second : List Char} (hfirst : mark ∉ first) (hsecond : ∀ c ∈ second.head?, c = mark) :
    (first ++ second).takeWhile (· != mark) = first ∧ (first ++ second).dropWhile (· != mark) = second := by
  have hall : ∀ c ∈ first, (c != mark) = true := fun c hc => bne_iff_ne.2 fun hmark => hfirst (hmark ▸ hc)
  rw [takeWhile_append_of_pos hall, dropWhile_append_of_pos hall]
  cases second <;> simp_all

/-- Without its last characters, as many as the extension has, a path still has the stem and the dot. -/
theorem dropTrailing_drop {backward rest : List Char} (hrest : ∀ c ∈ rest.head?, c ≠ '/')
    (htrimmed : dropTrailing backward = word ++ '.' :: rest) (hslash : '/' ∉ word) (hdot : '.' ∉ word)
    {count : Nat} (hcount : count ≤ word.length) :
    ∃ left, '/' ∉ left ∧ '.' ∉ left ∧ dropTrailing (backward.drop count) = left ++ '.' :: rest := by
  fun_induction dropTrailing backward generalizing count with
  | case1 => cases word <;> simp_all
  | case2 backward _ ih | case3 backward ih =>
    cases count with
    | zero => exact ⟨word, hslash, hdot, by simpa [dropTrailing] using htrimmed⟩
    | succ count => exact ih htrimmed (by omega)
  | case4 =>
    subst htrimmed
    refine ⟨word.drop count, fun hmem => hslash (mem_of_mem_drop hmem), fun hmem => hdot (mem_of_mem_drop hmem), ?_⟩
    rw [drop_append_of_le_length hcount]
    cases hleft : word.drop count with
    | nil =>
      rw [nil_append, dropTrailing] <;> simp
      rintro tail rfl
      exact hrest '/' rfl rfl
    | cons c left =>
      have hc : c ∈ word := mem_of_mem_drop (hleft ▸ mem_cons_self)
      rw [cons_append, dropTrailing] <;> simp
      · rintro rfl
        exact absurd hc hslash
      · rintro _ rfl
        exact absurd hc hdot

/-- What follows the stem in a path with a new extension. -/
def suffix (extension : String) : List Char := if extension = "" then [] else '.' :: extension.toList

theorem setExtension_eq {left : List Char} (hslash : '/' ∉ stem ++ '.' :: left) (hdot : '.' ∉ left) (hstem : stem ≠ [])
    (hfront : ∀ c ∈ front.getLast?, c = '/')
    (htrimmed : dropTrailing path.text.toList.reverse = left.reverse ++ '.' :: (stem.reverse ++ front.reverse)) (new : String) :
    path.setExtension new = if stem ++ '.' :: left = ['.', '.'] then path else ⟨String.ofList (front ++ (stem ++ suffix new))⟩ := by
  have hlast : path.splitLast = (front, stem ++ '.' :: left) := by
    have hparts := @takeWhile_append '/' (left.reverse ++ '.' :: stem.reverse) front.reverse (by simp_all) (by simpa using hfront)
    simp only [splitLast, htrimmed, ← cons_append, ← append_assoc, hparts]
    simp
  have hname : splitDot (stem ++ '.' :: left) = (stem, some left) := by
    have hparts := @takeWhile_append '.' left.reverse ('.' :: stem.reverse) (by simpa using hdot) (by simp)
    simp only [splitDot, reverse_append, reverse_cons, append_assoc, singleton_append, hparts]
    cases hbackward : stem.reverse <;> simp_all
  have hother : stem ++ '.' :: left ≠ [] ∧ stem ++ '.' :: left ≠ ['.'] := by
    cases stem <;> simp_all
  unfold setExtension fileName?
  rw [hlast]
  by_cases hdots : stem ++ '.' :: left = ['.', '.']
  · simp [hdots]
  · simp only [hdots, hother, hname, suffix, decide_false, Bool.or_self, Bool.false_eq_true, if_false]
    split <;> simp [String.ofList_append, String.append_assoc]

theorem Extended.withExtension (hextended : path.Extended front stem extension) (new : String) :
    (path.withExtension new).text.toList = front ++ (stem ++ suffix new) ∨
      stem = ['.'] ∧ spelling (path.withExtension new).text.toList = spelling (front ++ ['.', '.']) := by
  obtain ⟨next, rest, hbackward⟩ := exists_cons_of_ne_nil (reverse_ne_nil_iff.2 hextended.stem_ne_nil)
  have hplain := hextended.plain
  have hnext : next ≠ '/' := by
    rintro rfl
    have : '/' ∈ stem := mem_reverse.1 (hbackward ▸ mem_cons_self)
    simp_all
  let shortened := path.text.toList.take (path.text.toList.length - extension.length)
  obtain ⟨left, hslash, hdot, htrimmed⟩ : ∃ left, '/' ∉ left ∧ '.' ∉ left ∧
      dropTrailing shortened.reverse = left ++ '.' :: (stem.reverse ++ front.reverse) := by
    rw [reverse_take]
    exact dropTrailing_drop (by simpa [hbackward] using hnext) hextended.trimmed (by simp_all) (by simpa using hextended.dotless)
      (by simp; omega)
  have hset := @setExtension_eq front stem ⟨String.ofList shortened⟩ left.reverse (by simp_all) (by simpa using hdot)
    hextended.stem_ne_nil hextended.directory (by simpa using htrimmed) new
  simp only [Path.withExtension, hextended.extension_eq]
  rw [hset]
  split
  · rename_i hdots
    obtain ⟨rfl, rfl⟩ : stem = ['.'] ∧ left = [] := by
      have hstem := hextended.stem_ne_nil
      clear hset htrimmed hextended hbackward hplain
      rcases stem with _ | ⟨first, _ | ⟨second, tail⟩⟩ <;> simp_all
    refine .inr ⟨rfl, ?_⟩
    have hnames := spelling_dropTrailing shortened.reverse
    rw [htrimmed, reverse_reverse] at hnames
    simpa using hnames.symm
  · exact .inl (String.toList_ofList ..)

/-- The last name is two dots and an extension. -/
def IsDots (path : Path) : Prop := ∃ extension, '.' ∉ extension ∧ path.fileName? = some ('.' :: '.' :: extension)

/-- What stands before an extension stays where another comes in its place. -/
theorem exists_spelling_withExtension (hextension : path.extension? = some extension) :
    ∃ base, spelling path.text.toList = base ++ '.' :: extension ∧ ∀ new : String, '/' ∉ new.toList →
      spelling (path.withExtension new).text.toList = base ++ suffix new ∨
        path.IsDots ∧ (spelling (path.withExtension new).text.toList).length < (spelling path.text.toList).length := by
  obtain ⟨front, stem, hextended⟩ := exists_extended hextension
  obtain ⟨base, hbase⟩ := exists_spelling front
  obtain ⟨hslash, hstem⟩ : '/' ∉ stem ∧ stem ≠ [] :=
    ⟨fun hmem => hextended.plain (mem_append_left _ hmem), hextended.stem_ne_nil⟩
  have hpath : spelling path.text.toList = base ++ (stem ++ '.' :: extension) := by
    rw [← (hbase _ hextended.plain).2 (by simp) (by cases stem <;> simp_all)]
    have hnames := spelling_dropTrailing path.text.toList.reverse
    rw [hextended.trimmed, reverse_reverse] at hnames
    simpa using hnames.symm
  have hdots (hsingle : stem = ['.']) : path.IsDots := ⟨extension, hextended.dotless, by simpa [hsingle] using hextended.fileName_eq⟩
  refine ⟨base ++ stem, by rw [hpath, append_assoc], fun new hplain => ?_⟩
  have hsuffix : '/' ∉ stem ++ suffix new := by
    unfold suffix
    split <;> simp_all
  rcases hextended.withExtension new with heq | ⟨hsingle, hparent⟩
  · by_cases hdot : stem ++ suffix new = ['.']
    · have hless := (hbase _ hsuffix).1.length_le
      have hsingle : stem = ['.'] := by
        cases stem <;> simp_all
      refine .inr ⟨hdots hsingle, ?_⟩
      rw [heq, hpath]
      rw [hdot] at hless ⊢
      simp [hsingle] at hless ⊢
      omega
    · rw [heq, (hbase _ hsuffix).2 (by simp [hstem]) hdot, append_assoc]
      exact .inl rfl
  · have hmore : extension ≠ [] := by
      rintro rfl
      exact hextended.ne_dots (by rw [hsingle]; rfl)
    refine .inr ⟨hdots hsingle, ?_⟩
    have hpositive := length_pos_iff.2 hmore
    rw [hparent, hpath, (hbase _ (by decide)).2 (by decide) (by decide), hsingle]
    simp
    omega

/-- An extension comes behind all that is spelled. -/
theorem exists_spelling_append (path : Path) : ∃ base, spelling path.text.toList <+: base ∧
    ∀ extension : String, '/' ∉ extension.toList → extension ≠ "" →
      spelling (path.append s!".{extension}").text.toList = base ++ suffix extension := by
  obtain ⟨base, hbase⟩ := exists_spelling path.text.toList
  refine ⟨base, by simpa using (hbase [] not_mem_nil).1, fun extension hplain hempty => ?_⟩
  have hsuffix := (hbase ('.' :: extension.toList) (by simpa using hplain)).2 (by simp) (by simpa using hempty)
  simpa [append, suffix, hempty, toString] using hsuffix

/-- The names differ, and already their characters do. -/
def Apart (a b : Path) : Prop := spelling a.text.toList ≠ spelling b.text.toList

theorem Apart.not_same {a b : Path} (hapart : Apart a b) : ¬ a.same b = true := mt spelling_of_same hapart

theorem append_apart {new : String} (hplain : '/' ∉ new.toList) (hempty : new ≠ "") : Apart (path.append s!".{new}") path := by
  obtain ⟨base, hprefix, hbase⟩ := exists_spelling_append path
  have hlength := hprefix.length_le
  intro hsame
  rw [← hsame, hbase new hplain hempty, suffix, if_neg hempty, length_append, length_cons] at hlength
  omega

theorem withExtension_apart (hextension : path.extension? = some extension) {new : String} (hplain : '/' ∉ new.toList)
    (hother : suffix new ≠ '.' :: extension) : Apart (path.withExtension new) path := by
  obtain ⟨base, hpath, hbase⟩ := exists_spelling_withExtension hextension
  intro hsame
  rcases hbase new hplain with heq | ⟨-, hless⟩
  · rw [hsame, hpath] at heq
    exact hother (append_cancel_left heq).symm
  · exact absurd hless (by rw [hsame]; exact Nat.lt_irrefl _)

end Path

namespace Options

open NanScript.Path

variable {options : Options} {extension : String}

theorem derived_cases (options : Options) (extension : String) :
    options.derived extension = options.input.append s!".{extension}" ∨
      ∃ old, options.input.extension? = some old ∧ old ≠ extension.toList ∧
        options.derived extension = options.input.withExtension extension := by
  unfold derived
  cases options.input.extension? with
  | none => exact .inl rfl
  | some old =>
    by_cases hold : old = extension.toList
    · exact .inl (if_pos hold)
    · exact .inr ⟨old, rfl, hold, if_neg hold⟩

section

variable (hplain : '/' ∉ extension.toList) (hempty : extension ≠ "")

include hplain hempty

theorem derived_apart_input : Apart (options.derived extension) options.input := by
  rcases derived_cases options extension with happended | ⟨old, hold, hother, hreplaced⟩
  · rw [happended]
    exact append_apart hplain hempty
  · rw [hreplaced]
    exact withExtension_apart hold hplain (by simpa [suffix, hempty] using hother.symm)

/-- The extension is spelled at the end, behind all that the program's path has if it has none. -/
theorem exists_spelling_derived (hdots : ¬ options.input.IsDots) :
    ∃ base, spelling (options.derived extension).text.toList = base ++ '.' :: extension.toList ∧
      (options.input.extension?.isSome → spelling (options.input.withExtension "").text.toList <+: base) := by
  have hsuffix : suffix extension = '.' :: extension.toList := if_neg hempty
  rw [← hsuffix]
  rcases derived_cases options extension with happended | ⟨old, hold, -, hreplaced⟩
  · obtain ⟨base, hprefix, hbase⟩ := exists_spelling_append options.input
    refine ⟨base, by rw [happended, hbase extension hplain hempty], fun hsome => ?_⟩
    obtain ⟨old, hold⟩ := Option.isSome_iff_exists.1 hsome
    obtain ⟨stem, hinput, hstem⟩ := exists_spelling_withExtension hold
    rw [(hstem "" (by decide)).resolve_right fun hcase => hdots hcase.1]
    exact .trans (by simp [hinput, suffix]) hprefix
  · obtain ⟨base, -, hbase⟩ := exists_spelling_withExtension hold
    have hspelled (new : String) (hnew : '/' ∉ new.toList) := (hbase new hnew).resolve_right fun hcase => hdots hcase.1
    refine ⟨base, by rw [hreplaced, hspelled extension hplain], fun _ => ?_⟩
    simp [hspelled "" (by decide), suffix]

/-- Without an output path the program goes to a path of its own. -/
theorem executablePath_apart_derived (hdots : ¬ options.input.IsDots) (houtput : options.output = none)
    (hout : extension.toList.getLast? ≠ some 't') : Apart options.executablePath (options.derived extension) := by
  obtain ⟨base, hderived, hshort⟩ := exists_spelling_derived hplain hempty hdots
  intro hsame
  simp only [executablePath, houtput, hderived] at hsame
  split at hsame
  · rename_i hsome
    have hlength := (hshort hsome).length_le
    rw [hsame, length_append, length_cons] at hlength
    omega
  · obtain ⟨whole, -, hwhole⟩ := exists_spelling_append options.input
    have hlast := congrArg getLast? ((hwhole "out" (by decide) (by decide)).symm.trans hsame)
    have hend : (base ++ '.' :: extension.toList).getLast? = extension.toList.getLast? := by
      rw [append_cons]
      exact getLast?_append_of_ne_nil _ (by simpa using hempty)
    exact hout (hend.symm.trans (hlast.symm.trans (by simp [suffix])))

end

theorem asmPath_apart_objectPath (hdots : ¬ options.input.IsDots) : Apart options.asmPath options.objectPath := by
  obtain ⟨first, hfirst, -⟩ := @exists_spelling_derived options "asm" (by decide) (by decide) hdots
  obtain ⟨second, hsecond, -⟩ := @exists_spelling_derived options "o" (by decide) (by decide) hdots
  intro hsame
  have hlast := congrArg getLast? (hfirst.symm.trans (hsame.trans hsecond))
  simp at hlast

theorem executablePath_not_same_input (houtput : ∀ output ∈ options.output, ¬ output.same options.input = true) :
    ¬ options.executablePath.same options.input = true := by
  unfold executablePath
  cases hpath : options.output with
  | some path => exact houtput path hpath
  | none =>
    cases hextension : options.input.extension? with
    | none => exact (@append_apart options.input "out" (by decide) (by decide)).not_same
    | some old => exact (withExtension_apart hextension (by decide) (by simp [suffix])).not_same

theorem not_same_of_parse {arguments : List String} (hparse : parse arguments = .ok options) :
    ∀ output ∈ options.output, ¬ output.same options.input = true := by
  unfold parse at hparse
  cases hread : readArguments {} arguments with
  | error problem => simp [hread, bind, Except.bind] at hparse
  | ok draft =>
    simp only [hread, bind, Except.bind] at hparse
    split at hparse
    · cases hparse
    · split at hparse
      · cases hparse
      · rename_i hother
        cases hparse
        exact fun output houtput hsame => hother ((Option.any_eq_true ..).2 ⟨output, houtput, hsame⟩)

/-- The files that a build makes are not its source. They are not each other either, unless the output path says so or the source's
name is two dots and an extension. -/
theorem build_paths_apart {arguments : List String} (hparse : parse arguments = .ok options) :
    (¬ options.asmPath.same options.input = true ∧ ¬ options.objectPath.same options.input = true ∧
      ¬ options.executablePath.same options.input = true) ∧
    (¬ options.input.IsDots → ¬ options.asmPath.same options.objectPath = true ∧
      (options.executablePath.same options.asmPath = true ↔ ∃ output ∈ options.output, output.same options.asmPath = true) ∧
      (options.executablePath.same options.objectPath = true ↔ ∃ output ∈ options.output, output.same options.objectPath = true)) := by
  have hnamed {extension : String} (hdots : ¬ options.input.IsDots) (hplain : '/' ∉ extension.toList) (hempty : extension ≠ "")
      (hout : extension.toList.getLast? ≠ some 't') : options.executablePath.same (options.derived extension) = true ↔
        ∃ output ∈ options.output, output.same (options.derived extension) = true := by
    cases houtput : options.output with
    | some output => simp [executablePath, houtput]
    | none => simpa using (executablePath_apart_derived hplain hempty hdots houtput hout).not_same
  refine ⟨⟨(derived_apart_input (by decide) (by decide)).not_same, (derived_apart_input (by decide) (by decide)).not_same,
    executablePath_not_same_input (not_same_of_parse hparse)⟩, fun hdots => ⟨(asmPath_apart_objectPath hdots).not_same,
      hnamed hdots (by decide) (by decide) (by decide), hnamed hdots (by decide) (by decide) (by decide)⟩⟩

theorem build_paths_apart_hidden : ∃ options, parse [".x.asm", "--asm-only"] = .ok options ∧
    options.asmPath = ⟨".x.asm.asm"⟩ ∧ options.objectPath = ⟨".x.o"⟩ ∧ options.executablePath = ⟨".x"⟩ ∧
    ¬ options.executablePath.same options.input = true :=
  ⟨⟨⟨".x.asm"⟩, none, true, none⟩, by decide, by decide, by decide, by decide,
    (@build_paths_apart _ [".x.asm", "--asm-only"] (by decide)).1.2.2⟩

/-- The program may go where the assembly is. -/
theorem exists_executablePath_same_asmPath : ∃ options, parse ["x.aria", "-o", "x.asm"] = .ok options ∧
    options.executablePath.same options.asmPath = true := ⟨⟨⟨"x.aria"⟩, some ⟨"x.asm"⟩, false, none⟩, by decide, by decide⟩

end Options

end NanScript
