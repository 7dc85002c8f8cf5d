import Mathlib.Logic.Relation
import NanScript.Proofs.Emission.Marks

/-!
# Paths through code

A path goes through the code of one routine in any way that its jumps allow: a condition may turn out either way, at any time.
All that matters of the machine are the two pointers into the stack. A text is not executed, but it does no harm to say that a
path goes over it.

Read line by line from the top, the code gives one value of the pointers for each place. If all lines fit, that is if every
jump leads to a place with the pointers that it starts from, then these are the pointers that every path has there.
-/

namespace NanScript

variable {line : Line}

/-- The stack pointer, and the frame pointer as far as it is known. -/
structure Pointers where
  stack : Int
  frame : Option Int
  deriving DecidableEq, Repr

/-- A register gets a value that nothing is known of. -/
def Pointers.overwrite (p : Pointers) : Register → Option Pointers
  | .rsp => none
  | .rbp => some { p with frame := none }
  | _ => some p

/-- The pointers behind an instruction, if they can be told. A called function gives them back. -/
def Instruction.shift (p : Pointers) : Instruction → Option Pointers
  | .push _ => some { p with stack := p.stack - 8 }
  | .pop target => { p with stack := p.stack + 8 }.overwrite target
  | .move (.register .rbp) (.register .rsp) => some { p with frame := some p.stack }
  | .move (.register target) _ => p.overwrite target
  | .functionAddress target _ | .globalAddress target _ | .textAddress target _ => p.overwrite target
  | .reserve bytes => some { p with stack := p.stack - bytes }
  | .release bytes => some { p with stack := p.stack + bytes }
  | .unwind bytes => p.frame.map fun frame => { p with stack := frame - bytes }
  | _ => some p

namespace Line

def shift (p : Pointers) : Line → Option Pointers
  | instruction i => i.shift p
  | _ => some p

/-- Whether a path may go on to the next line. -/
def passes : Line → Bool
  | instruction (.jump .always _) | instruction .ret => false
  | _ => true

def isCall : Line → Bool
  | instruction (.call _ _) | instruction (.callAddress _) => true
  | _ => false

/-- Whether a routine begins here. -/
def isHeader : Line → Bool
  | entry | function _ => true
  | _ => false

end Line

/-- A place in the code of a routine, and the pointers of a path that has come there. -/
structure Point where
  rest : Code
  pointers : Pointers

namespace Point

/-- A path goes on to the next line or to the target of a jump. If the pointers cannot be told, they may be any. -/
inductive Step (whole : Code) : Point → Point → Prop
  | onward {line : Line} {rest : Code} {p q : Pointers} (hpasses : line.passes = true)
      (hshift : ∀ known ∈ line.shift p, q = known) : Step whole ⟨line :: rest, p⟩ ⟨rest, q⟩
  | jump {condition : Condition} {label : Label} {rest target : Code} {p : Pointers}
      (hseek : Code.seek label whole = some target) :
      Step whole ⟨.instruction (.jump condition label) :: rest, p⟩ ⟨target, p⟩

/-- A path that begins with the code comes to the point. -/
def Reached (whole : Code) (start : Pointers) : Point → Prop := Relation.ReflTransGen (Step whole) ⟨whole, start⟩

end Point

namespace Code

/-- The pointers behind code that is read line by line. -/
def scan : Pointers → Code → Option Pointers
  | p, [] => some p
  | p, line :: rest => line.shift p >>= (scan · rest)

section

variable {p q : Pointers} {front back rest : Code}

@[simp] theorem scan_nil : scan p [] = some p := rfl

@[simp] theorem scan_cons : scan p (line :: rest) = line.shift p >>= (scan · rest) := rfl

@[simp] theorem scan_append : scan p (front ++ back) = scan p front >>= (scan · back) := by
  induction front generalizing p with
  | nil => rfl
  | cons line front ih =>
    show line.shift p >>= (scan · (front ++ back)) = (line.shift p >>= (scan · front)) >>= _
    cases line.shift p with
    | none => rfl
    | some q => exact ih

end

/-- The pointers at a place of the code, read line by line. -/
def At (whole : Code) (start : Pointers) (rest : Code) (p : Pointers) : Prop :=
  ∃ front, whole = front ++ rest ∧ scan start front = some p

namespace At

variable {whole rest made : Code} {start p q : Pointers}

theorem unique (hp : At whole start rest p) (hq : At whole start rest q) : p = q := by
  obtain ⟨front, rfl, hscan⟩ := hp
  obtain ⟨front', hfront, hscan'⟩ := hq
  obtain rfl := List.append_cancel_right hfront
  exact Option.some.inj (hscan.symm.trans hscan')

theorem behind (hp : At whole start (made ++ rest) p) (hscan : scan p made = some q) : At whole start rest q := by
  obtain ⟨front, rfl, hfront⟩ := hp
  refine ⟨front ++ made, (List.append_assoc ..).symm, ?_⟩
  rw [scan_append, hfront]
  exact hscan

theorem tail (hp : At whole start (line :: rest) p) (hshift : line.shift p = some q) : At whole start rest q := by
  have hscan : scan p [line] = some q := by
    rw [scan_cons, hshift]
    rfl
  exact behind hp hscan

theorem suffix (hp : At whole start rest p) : rest <:+ whole := by
  obtain ⟨front, rfl, -⟩ := hp
  exact List.suffix_append _ _

end At

end Code

/-! ### Lines that fit -/

/-- What a line asks for, when the stack pointer must not rise above `floor`. -/
def Line.Fits (whole : Code) (start : Pointers) (floor : Int) (p : Pointers) : Line → Prop
  | instruction (.call _ _) | instruction (.callAddress _) => p.stack % 16 = 0
  | instruction (.pop _) => p.stack + 8 ≤ floor
  | instruction (.release bytes) => p.stack + bytes ≤ floor
  | instruction (.unwind bytes) => ∀ frame ∈ p.frame, frame - bytes ≤ floor
  | instruction (.jump _ mark) => ∃ target, whole.At start (.label mark :: target) p
  | instruction .ret => p.stack = start.stack
  | _ => True

namespace Code

section

variable {whole : Code} {start : Pointers} {floor : Int}

/-- Lines that all fit, from the pointers `p` to the pointers `q`. -/
def Fit (whole : Code) (start : Pointers) (floor : Int) : Pointers → Code → Pointers → Prop
  | p, [], q => p = q
  | p, line :: rest, q => line.Fits whole start floor p ∧ ∃ middle, line.shift p = some middle ∧ Fit whole start floor middle rest q

variable {p q : Pointers} {made rest : Code}

theorem Fit.nil : Fit whole start floor p [] p := rfl

theorem Fit.scan (hfit : Fit whole start floor p made q) : scan p made = some q := by
  induction made generalizing p with
  | nil =>
    obtain rfl := hfit
    rfl
  | cons line rest ih =>
    obtain ⟨-, middle, hshift, hrest⟩ := hfit
    rw [scan_cons, hshift]
    exact ih hrest

theorem Fit.append {middle : Pointers} {back : Code} (hmade : Fit whole start floor p made middle)
    (hback : Fit whole start floor middle back q) : Fit whole start floor p (made ++ back) q := by
  induction made generalizing p with
  | nil =>
    obtain rfl := hmade
    exact hback
  | cons line rest ih =>
    obtain ⟨hline, next, hshift, hrest⟩ := hmade
    exact ⟨hline, next, hshift, ih hrest⟩

theorem Fit.of_append {back : Code} (hfit : Fit whole start floor p (made ++ back) q) :
    ∃ middle, Fit whole start floor p made middle ∧ Fit whole start floor middle back q := by
  induction made generalizing p with
  | nil => exact ⟨p, rfl, hfit⟩
  | cons line rest ih =>
    obtain ⟨hline, next, hshift, hrest⟩ := hfit
    obtain ⟨middle, hrest, hback⟩ := ih hrest
    exact ⟨middle, ⟨hline, next, hshift, hrest⟩, hback⟩

theorem Fit.lower {floor' : Int} (hfit : Fit whole start floor p made q) (hfloor : floor ≤ floor') :
    Fit whole start floor' p made q := by
  induction made generalizing p with
  | nil => exact hfit
  | cons line rest ih =>
    obtain ⟨hline, middle, hshift, hrest⟩ := hfit
    refine ⟨?_, middle, hshift, ih hrest⟩
    unfold Line.Fits at hline ⊢
    split
    · exact hline
    · exact hline
    · exact Int.le_trans hline hfloor
    · exact Int.le_trans hline hfloor
    · exact fun frame hframe => Int.le_trans (hline frame hframe) hfloor
    · exact hline
    · exact hline
    · trivial

theorem stack_le_of_shift (hline : line.Fits whole start floor p) (hshift : line.shift p = some q)
    (hstack : p.stack ≤ floor) : q.stack ≤ floor := by
  have hoverwrite {p' : Pointers} {r : Register} (hq : p'.overwrite r = some q) : q.stack = p'.stack := by
    unfold Pointers.overwrite at hq
    split at hq <;> cases hq <;> rfl
  unfold Line.shift at hshift
  split at hshift
  · unfold Instruction.shift at hshift
    split at hshift
    · cases hshift
      dsimp only
      omega
    · exact Int.le_trans (Int.le_of_eq (hoverwrite hshift)) hline
    · cases hshift
      exact hstack
    · exact Int.le_trans (Int.le_of_eq (hoverwrite hshift)) hstack
    · exact Int.le_trans (Int.le_of_eq (hoverwrite hshift)) hstack
    · exact Int.le_trans (Int.le_of_eq (hoverwrite hshift)) hstack
    · exact Int.le_trans (Int.le_of_eq (hoverwrite hshift)) hstack
    · cases hshift
      dsimp only
      omega
    · cases hshift
      exact hline
    · obtain ⟨frame, hframe, rfl⟩ := Option.map_eq_some_iff.1 hshift
      exact hline frame hframe
    · cases hshift
      exact hstack
  · cases hshift
    exact hstack

theorem Fit.stack_le (hfit : Fit whole start floor p made q) (hstack : p.stack ≤ floor) : q.stack ≤ floor := by
  induction made generalizing p with
  | nil =>
    obtain rfl := hfit
    exact hstack
  | cons line rest ih =>
    obtain ⟨hline, middle, hshift, hrest⟩ := hfit
    exact ih hrest (stack_le_of_shift hline hshift hstack)

end

/-- At every place the line fits, and the pointers behind it can be told. -/
theorem Fit.fits_of_at {whole : Code} {start q p : Pointers} {floor : Int} {rest : Code}
    (hfit : Fit whole start floor start whole q) (hat : whole.At start (line :: rest) p) :
    line.Fits whole start floor p ∧ ∃ next, line.shift p = some next := by
  obtain ⟨front, hwhole, hscan⟩ := hat
  have hsplit : Fit whole start floor start (front ++ line :: rest) q := hwhole ▸ hfit
  obtain ⟨middle, hfront, hline, next, hshift, -⟩ := hsplit.of_append
  obtain rfl := Option.some.inj (hfront.scan.symm.trans hscan)
  exact ⟨hline, next, hshift⟩

end Code

/-! ### Paths through code that fits -/

namespace Point

variable {whole : Code} {start q : Pointers} {floor : Int} {point next : Point} (hunique : ∀ key, whole.uses key ≤ 1)
  (hfit : Code.Fit whole start floor start whole q)

include hunique hfit

theorem Step.at (hstep : Step whole point next) (hat : whole.At start point.rest point.pointers) :
    whole.At start next.rest next.pointers := by
  cases hstep with
  | onward hpasses hshift =>
    obtain ⟨-, known, hknown⟩ := hfit.fits_of_at hat
    obtain rfl := hshift known hknown
    exact hat.tail hknown
  | jump hseek =>
    obtain ⟨⟨target, htarget⟩, -⟩ := hfit.fits_of_at hat
    obtain rfl := Option.some.inj ((Code.seek_of_suffix hunique htarget.suffix).symm.trans hseek)
    exact htarget.tail rfl

/-- Every path has the pointers of the place where it is. -/
theorem Reached.at (hreached : Reached whole start point) : whole.At start point.rest point.pointers := by
  induction hreached with
  | refl => exact ⟨[], rfl, rfl⟩
  | tail _ hstep ih => exact hstep.at hunique hfit ih

end Point

/-! ### Discipline -/

namespace Code

variable {whole made behind : Code} {start p q : Pointers} {floor : Int}

/-- What is to hold of the paths through a routine. -/
structure Disciplined (routine : Code) (start : Pointers) : Prop where
  /-- Calls find the stack aligned. -/
  call : ∀ {line : Line} {rest : Code} {p : Pointers}, Point.Reached routine start ⟨line :: rest, p⟩ → line.isCall = true →
    p.stack % 16 = 0
  /-- The routine is left with the stack that it was entered with. -/
  ret : ∀ {rest : Code} {p : Pointers}, Point.Reached routine start ⟨.instruction .ret :: rest, p⟩ → p.stack = start.stack
  /-- Jumps lead to labels of the routine. -/
  jump : ∀ {condition : Condition} {label : Label} {rest : Code} {p : Pointers},
    Point.Reached routine start ⟨.instruction (.jump condition label) :: rest, p⟩ → (seek label routine).isSome = true
  /-- Whichever way a path comes to a place, the pointers are the same. -/
  pointers : ∀ {rest : Code} {p q : Pointers}, Point.Reached routine start ⟨rest, p⟩ → Point.Reached routine start ⟨rest, q⟩ →
    p = q

/-- The code in front of `behind` finds the stack pointer at a height and leaves it there, and it is never above it
in between. -/
structure Keeps (routine : Code) (start : Pointers) (height : Int) (made behind : Code) : Prop where
  before : ∀ {p : Pointers}, Point.Reached routine start ⟨made ++ behind, p⟩ → p.stack = height
  after : ∀ {p : Pointers}, Point.Reached routine start ⟨behind, p⟩ → p.stack = height
  within : ∀ {rest : Code} {p : Pointers}, rest <:+ made → Point.Reached routine start ⟨rest ++ behind, p⟩ → p.stack ≤ height

theorem Fit.disciplined (hfit : Fit whole start floor start whole q) (hunique : ∀ key, whole.uses key ≤ 1) :
    whole.Disciplined start where
  call {line} _ p hreached hcall := by
    obtain ⟨hline, -⟩ := hfit.fits_of_at (hreached.at hunique hfit)
    unfold Line.isCall at hcall
    split at hcall
    · exact hline
    · exact hline
    · contradiction
  ret hreached := (hfit.fits_of_at (hreached.at hunique hfit)).1
  jump hreached := by
    obtain ⟨⟨target, htarget⟩, -⟩ := hfit.fits_of_at (hreached.at hunique hfit)
    rw [seek_of_suffix hunique htarget.suffix]
    rfl
  pointers hp hq := (hp.at hunique hfit).unique (hq.at hunique hfit)

theorem Fit.keeps (hfit : Fit whole start floor start whole q) (hunique : ∀ key, whole.uses key ≤ 1)
    (hat : whole.At start (made ++ behind) p) (hmade : Fit whole start p.stack p made p) :
    whole.Keeps start p.stack made behind where
  before hreached := congrArg _ ((hreached.at hunique hfit).unique hat)
  after hreached := congrArg _ ((hreached.at hunique hfit).unique (hat.behind hmade.scan))
  within {_ q'} hsuffix hreached := by
    obtain ⟨front, rfl⟩ := hsuffix
    obtain ⟨middle, hfront, -⟩ := hmade.of_append
    rw [List.append_assoc] at hat
    obtain rfl : q' = middle := (hreached.at hunique hfit).unique (hat.behind hfront.scan)
    exact hfront.stack_le (Int.le_refl _)

end Code

end NanScript
