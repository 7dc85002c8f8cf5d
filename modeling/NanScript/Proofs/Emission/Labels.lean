import NanScript.Proofs.Emission.Discipline

/-!
# Labels and texts

The labels of a routine have different names, also when they are written out, and whatever a line refers to is there. A text
stands in the midst of the code, but no path comes to it: the line in front of it always jumps away, and no label is between
the two.
-/

namespace NanScript

open Line Code List

variable {label : Label}

/-! ### Names of labels -/

namespace Label

/-- What the names of the labels of one kind have in common. -/
def stem : Label → String
  | ret => ".Lret"
  | safe _ => ".Lsafe_"
  | otherwise _ => ".Lelse_"
  | finish _ => ".Lend_"
  | again _ => ".Lloop_"
  | next _ => ".Lcont_"
  | ternary _ => ".Ltern_"
  | ternaryEnd _ => ".Ltern_end_"
  | shortEnd _ => ".Lsc_end_"
  | text _ => ".Lstr_"
  | textEnd _ => ".Lstr_end_"

def digits : Label → List Char
  | ret => []
  | safe number | otherwise number | finish number | again number | next number | ternary number | ternaryEnd number
  | shortEnd number | text number | textEnd number => Nat.toDigits 10 number

theorem toList_render (label : Label) : label.render.toList = label.stem.toList ++ label.digits := by
  cases label <;> simp [render, stem, digits, ToString.toString]

theorem isDigit_of_mem_digits {c : Char} (hc : c ∈ label.digits) : c.isDigit = true := by
  cases label with
  | ret => contradiction
  | _ => exact Nat.isDigit_of_mem_toDigits (by decide) (by decide) hc

/-- The stem is what is left without the digits at the end. -/
theorem stem_eq (label : Label) : label.stem.toList.reverse = label.render.toList.reverse.dropWhile Char.isDigit := by
  rw [toList_render, reverse_append, dropWhile_append_of_pos]
  · cases label <;> simp [stem, Char.isDigit]
  · intro c hc
    exact isDigit_of_mem_digits (mem_reverse.1 hc)

theorem toDigits_injective : Function.Injective (Nat.toDigits 10) := by
  intro number number' hsame
  have hvalue := congrArg (Nat.ofDigitChars 10 · 0) hsame
  simpa [Nat.ofDigitChars_ten_toDigits] using hvalue

theorem render_injective : Function.Injective render := by
  intro label label' hsame
  have hstem : label.stem = label'.stem := by
    rw [← String.toList_inj, ← reverse_inj, stem_eq, stem_eq, hsame]
  have hdigits : label.digits = label'.digits := by
    have hrender := congrArg String.toList hsame
    rw [toList_render, toList_render, hstem] at hrender
    exact append_cancel_left hrender
  cases label <;> cases label' <;> first
    | rfl
    | exact congrArg _ (toDigits_injective hdigits)
    | simp [stem] at hstem

end Label

/-! ### Marks and references -/

namespace Line

def mark? : Line → Option Label
  | .label mark => some mark
  | text number _ => some (.text number)
  | _ => none

def target? : Line → Option Label
  | instruction (.jump _ mark) => some mark
  | instruction (.textAddress _ number) => some (.text number)
  | _ => none

def isText : Line → Bool
  | text .. => true
  | _ => false

@[simp] theorem isText_instruction {i : Instruction} : (instruction i).isText = false := rfl

@[simp] theorem isText_label : (Line.label label).isText = false := rfl

@[simp] theorem isText_function {name : String} : (function name).isText = false := rfl

end Line

namespace Code

variable {front back rest code whole : Code} {number : Nat}

def marks (code : Code) : List Label := code.filterMap mark?

theorem count_marks_le (label : Label) : code.marks.count label ≤ code.uses label.key := by
  rw [marks, count_filterMap]
  refine countP_mono_left fun line _ hmark => ?_
  have hmark := beq_iff_eq.1 hmark
  rw [beq_iff_eq]
  cases line with
  | label | text =>
    obtain rfl := Option.some.inj hmark
    rfl
  | _ => contradiction

/-- Where each key is used once, each label is defined once, whether it is taken for itself or for its name. -/
theorem nodup_names (hunique : ∀ key, code.uses key ≤ 1) : (code.marks.map Label.render).Nodup := by
  refine Nodup.map Label.render_injective (nodup_iff_count_le_one.2 fun label => ?_)
  exact Nat.le_trans (count_marks_le label) (hunique label.key)

theorem suffix_of_seek {target : Code} (hseek : seek label whole = some target) :
    .label label :: target <:+ whole := by
  induction whole with
  | nil => contradiction
  | cons line rest ih =>
    cases line with
    | label other =>
      have hseek : (if other = label then some rest else seek label rest) = some target := hseek
      split at hseek
      · next hsame =>
        obtain rfl := Option.some.inj hseek
        subst hsame
        exact suffix_refl _
      · exact (ih hseek).trans (suffix_cons _ _)
    | _ => exact (ih hseek).trans (suffix_cons _ _)

theorem mem_marks_of_mem_texts (hnumber : number ∈ code.texts) : .text number ∈ code.marks := by
  obtain ⟨line, hline, hlaid⟩ := mem_filterMap.1 hnumber
  refine mem_filterMap.2 ⟨line, hline, ?_⟩
  cases line with
  | text =>
    obtain rfl := Option.some.inj hlaid
    rfl
  | _ => contradiction

/-! ### Texts are not executed -/

/-- Every text is behind a line that jumps away. The flag says whether the line in front of the code does. -/
def Sheltered : Bool → Code → Prop
  | _, [] => True
  | sheltered, line :: rest => (line.isText = true → sheltered = true) ∧ Sheltered (!line.passes) rest

abbrev Textless (code : Code) : Prop := code.Every (·.isText = false)

theorem Linked.textless {outline : Outline} {free : String → Prop} (hcode : Linked outline free [] code) : Textless code := by
  intro line hline
  have hlinked := hcode line hline
  cases line with
  | text => exact absurd hlinked not_mem_nil
  | _ => rfl

variable {line : Line}

theorem Textless.sheltered (htextless : Textless code) (flag : Bool) : Sheltered flag code := by
  induction code generalizing flag with
  | nil => trivial
  | cons line rest ih =>
    obtain ⟨hline, hrest⟩ := every_cons.1 htextless
    exact ⟨by simp [hline], ih hrest _⟩

theorem Sheltered.mono (hcode : Sheltered false code) (flag : Bool) : Sheltered flag code := by
  cases code with
  | nil => trivial
  | cons => exact ⟨fun htext => absurd (hcode.1 htext) Bool.false_ne_true, hcode.2⟩

variable {flag : Bool}

theorem Sheltered.append (hfront : Sheltered flag front) (hback : Sheltered false back) :
    Sheltered flag (front ++ back) := by
  induction front generalizing flag with
  | nil => exact hback.mono flag
  | cons line rest ih => exact ⟨hfront.1, ih hfront.2⟩

theorem sheltered_text {skip data : Nat} {content : String} : Sheltered false (text skip data content) := by
  simp [text, Sheltered, isText, passes]

theorem Sheltered.not_passes {bytes : List UInt8} (hcode : Sheltered flag (front ++ line :: .text number bytes :: rest))
    : line.passes = false := by
  induction front generalizing flag with
  | nil => simpa using hcode.2.1 rfl
  | cons _ _ ih => exact ih hcode.2

end Code

variable {whole : Code} {start : Pointers}

theorem Point.Reached.not_text (hsheltered : Sheltered false whole) {point : Point}
    (hreached : Reached whole start point) :
    point.rest <:+ whole ∧ ∀ number bytes rest, point.rest ≠ .text number bytes :: rest := by
  induction hreached with
  | refl =>
    refine ⟨suffix_refl _, ?_⟩
    rintro number bytes rest rfl
    exact absurd (hsheltered.1 rfl) Bool.false_ne_true
  | tail _ hstep ih =>
    obtain ⟨hsuffix, -⟩ := ih
    cases hstep with
    | @onward line rest _ _ hpasses =>
      refine ⟨(suffix_cons _ _).trans hsuffix, ?_⟩
      rintro number bytes rest rfl
      obtain ⟨front, rfl⟩ := hsuffix
      exact Bool.false_ne_true (hsheltered.not_passes.symm.trans hpasses)
    | @jump _ label _ target _ hseek =>
      obtain ⟨front, hwhole⟩ := suffix_of_seek hseek
      refine ⟨(suffix_cons _ _).trans ⟨front, hwhole⟩, ?_⟩
      rintro number bytes rest rfl
      rw [← hwhole] at hsheltered
      exact Bool.false_ne_true (hsheltered.not_passes.symm.trans rfl)

/-! ### Texts of emitted code -/

namespace Piece

/-- All lines of the emitter itself have a property, taken together as far as no part is between them. -/
def Lines (property : Code → Prop) (pieces : List Piece) : Prop := ∀ code, .lines code ∈ pieces → property code

variable {property : Code → Prop} {rest : List Piece}

@[simp] theorem lines_nil : Lines property [] := fun _ hlines => absurd hlines not_mem_nil

@[simp] theorem lines_lines {code : Code} : Lines property (.lines code :: rest) ↔ property code ∧ Lines property rest := by
  simp [Lines]

@[simp] theorem lines_part {site : Site} {made : Code} {next : Nat} :
    Lines property (.part site made next :: rest) ↔ Lines property rest := by
  simp [Lines]

@[simp] theorem lines_append {front back : List Piece} :
    Lines property (front ++ back) ↔ Lines property front ∧ Lines property back := by
  simp [Lines, or_imp, forall_and]

theorem lines_of_textless {pieces : List Piece} (htextless : Textless (own pieces)) : Lines (Sheltered false) pieces :=
  fun _ hlines => Textless.sheltered (fun line hline => htextless line (mem_flatMap.2 ⟨_, hlines, hline⟩)) false

theorem sheltered_all {pieces : List Piece} (hlines : Lines (Sheltered false) pieces)
    (hparts : Each (fun _ made _ => Sheltered false made) pieces) : Sheltered false (all pieces) := by
  induction pieces with
  | nil => trivial
  | cons piece rest ih =>
    cases piece with
    | lines code =>
      obtain ⟨hcode, hlines⟩ := lines_lines.1 hlines
      exact hcode.append (ih hlines (each_lines.1 hparts))
    | part site made next =>
      obtain ⟨hmade, hparts⟩ := each_part.1 hparts
      exact hmade.append (ih (lines_part.1 hlines) hparts)

end Piece

namespace Site

open Code Piece

variable {outline : Outline} {allocation : Allocation} {loop : Option LoopLabels} {depth number next : Nat}
  {pieces : List Piece} {site : Site} {made : Code}

theorem sheltered_methods {methods : List Tree} (hinstalled : Emit.Installed depth methods number made next) :
    Sheltered false made := by
  induction hinstalled with
  | nil => trivial
  | method _ ih => exact (sheltered_text.append (Textless.sheltered (by simp [method]) _)).append ih
  | other _ ih => exact ih

variable {trees : List Tree}

/-- A text that the emitter writes itself is behind a jump. -/
theorem Shape.sheltered (hshape : site.Shape outline allocation pieces next) : Lines (Sheltered false) pieces := by
  have hplain {code : Code} (htextless : Textless code) : Sheltered false code := htextless.sheltered false
  have hlinked {code : Code} (hcode : Linked {} (fun _ => True) [] code) : Textless code := hcode.textless
  cases hshape with
    try simp only [lines_lines, lines_part, lines_append, lines_nil, and_true]
  | str => exact (sheltered_text.append (hplain (by simp))).append (hplain (by simp))
  | get => exact ⟨sheltered_text, hplain (by simp)⟩
  | set => exact ⟨sheltered_text, hplain (by simp), hplain (by simp)⟩
  | callMethod harguments =>
    exact ⟨hplain (by simp), lines_of_textless (hlinked harguments.linked), sheltered_text, hplain (by simp [callEnd, -map_take])⟩
  | new _ hmethods =>
    refine ((hplain ?_).append (sheltered_methods (Emit.installed_of_emits hmethods))).append (hplain (by simp))
    simp
  | array hitems => exact ⟨hplain (by simp), lines_of_textless (hlinked hitems.linked)⟩
  | varDecl hvalue | ret hvalue => exact ⟨lines_of_textless (hlinked hvalue.linked), hplain (by simp)⟩
  | callDirect _ _ harguments | callValue _ _ harguments =>
    exact ⟨hplain (by simp), lines_of_textless (hlinked harguments.linked), hplain (by simp [callEnd, -map_take])⟩
  | block hstatements => exact lines_of_textless (by simp [hstatements.own_eq])
  | ifElse hoption | whileLoop hoption =>
    simp [hplain, lines_of_textless, hoption.sequence.own_eq, poll, truth]
  | _ => simp [hplain, truth]

theorem Made.sheltered (hmade : site.Made outline allocation made next) : Sheltered false made := by
  induction hmade with
  | intro hshape _ ih => exact sheltered_all hshape.sheltered ih

end Site

/-! ### Texts of routines -/

theorem Site.Initials.sheltered {program : List Tree} {parts : List Piece} {number next : Nat}
    (hinitials : Initials program number parts next) : Piece.Lines (Sheltered false) parts := by
  induction hinitials with
  | nil => simp
  | global hinitial _ ih =>
    simp only [Piece.lines_append, Piece.lines_lines]
    have hvalue : Code.Linked {} (fun _ => True) [] _ := hinitial.linked
    exact ⟨Piece.lines_of_textless hvalue.textless, Textless.sheltered (by simp) _, ih⟩
  | other _ _ ih => exact ih

theorem Code.Fit.fits_of_mem {made : Code} {p q : Pointers} {floor : Int} (hfit : Fit whole start floor p made q)
    {line : Line} (hline : line ∈ made) : ∃ middle, line.Fits whole start floor middle := by
  induction made generalizing p with
  | nil => contradiction
  | cons first rest ih =>
    obtain ⟨hfirst, middle, -, hrest⟩ := hfit
    rcases mem_cons.1 hline with rfl | hline
    · exact ⟨p, hfirst⟩
    · exact ih hrest hline

namespace Plan.IsRoutine

variable {program : List Tree} {outline : Outline} {plan : Plan}

theorem textless_around (hroutine : plan.IsRoutine program outline) : plan.front.Textless ∧ plan.back.Textless := by
  cases hroutine with
  | entry => exact ⟨by simp [preparation, isText], by simp [departure, isText]⟩
  | function _ hcopies =>
    have hcopied : Textless _ := Emit.every_parameters hcopies (fun _ _ => rfl) fun _ => rfl
    exact ⟨by simp [opening, poll, hcopied], by simp [ending, isText]⟩

theorem sheltered (hroutine : plan.IsRoutine program outline) : plan.code.Sheltered false := by
  obtain ⟨hfront, hback⟩ := hroutine.textless_around
  have hlines : Piece.Lines (Sheltered false) plan.parts := by
    cases hroutine with
    | entry hinitials => exact hinitials.sheltered
    | function => simp
  have hparts := Piece.sheltered_all hlines (hroutine.made.imp fun _ _ _ hmade => hmade.sheltered)
  exact (hfront.sheltered _).append (hparts.append (hback.sheltered _))

/-- Whatever a line of a routine refers to is in the routine. -/
theorem target_mem_marks (hroutine : plan.IsRoutine program outline) (hsettled : plan.Settled program outline)
    (hclosed : ∀ tree ∈ functionDeclarations program, tree.IsClosed) {line : Line} (hline : line ∈ plan.code)
    (htarget : label ∈ line.target?) : label ∈ plan.code.marks := by
  obtain ⟨_, _, -, -, -, -, hfit⟩ := hroutine.fit hclosed (rfl : (⟨8, none⟩ : Pointers).stack % 16 = 8)
  unfold target? at htarget
  split at htarget
  · obtain rfl := Option.some.inj htarget
    obtain ⟨_, target, front, hcode, -⟩ := hfit.fits_of_mem hline
    rw [hcode]
    exact mem_filterMap.2 ⟨_, mem_append_right _ mem_cons_self, rfl⟩
  · obtain rfl := Option.some.inj htarget
    exact mem_marks_of_mem_texts (hsettled.lettered (mem_filterMap.2 ⟨_, hline, rfl⟩))
  · contradiction

end Plan.IsRoutine

end NanScript
