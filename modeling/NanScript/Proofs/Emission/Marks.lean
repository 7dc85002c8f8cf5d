import NanScript.Assembly.Program
import NanScript.Proofs.Emission.Processor

/-!
# Labels are unique

Labels and texts are numbered from one counter, and each number that is drawn marks at most one line. So a jump has one place
to go to, and it does not matter from where it looks for it.
-/

namespace NanScript

variable {number : Nat}

/-- The label of the exit, which has no number, comes before all others. -/
def Label.key : Label → Nat
  | ret => 0
  | safe number | otherwise number | finish number | again number | next number | ternary number | ternaryEnd number
  | shortEnd number | text number | textEnd number => number + 1

/-- The key of what a line marks. -/
def Line.key? : Line → Option Nat
  | .label mark => some mark.key
  | text number _ => some (Label.text number).key
  | _ => none

namespace Code

/-! ### Lines of code -/

/-- All lines have a property. -/
def Every (property : Line → Prop) (code : Code) : Prop := ∀ line ∈ code, property line

section

variable {property : Line → Prop} {line : Line} {rest front back : Code} {list : List Instruction}

@[simp] theorem every_nil : Every property [] := by simp [Every]

@[simp] theorem every_cons : Every property (line :: rest) ↔ property line ∧ Every property rest := List.forall_mem_cons

@[simp] theorem every_append : Every property (front ++ back) ↔ Every property front ∧ Every property back :=
  List.forall_mem_append

@[simp] theorem every_instructions :
    Every property (instructions list) ↔ ∀ instruction ∈ list, property (.instruction instruction) := List.forall_mem_map

@[simp] theorem every_flatMap {α : Type} {items : List α} {part : α → Code} :
    Every property (items.flatMap part) ↔ ∀ item ∈ items, Every property (part item) := List.forall_mem_flatMap

@[simp] theorem every_runtime {depth arguments : Nat} {name : String} : Every property (runtime depth name arguments) ↔
    property (.instruction (.call name arguments)) ∧
      (depth % 2 = 1 → property (.instruction (.reserve 8)) ∧ property (.instruction (.release 8))) := by
  by_cases hodd : depth % 2 = 1 <;> simp [runtime, hodd, and_left_comm]

@[simp] theorem every_reserved {pad : Nat} : Every property (reserved pad) ↔ (pad = 1 → property (.instruction (.reserve 8))) := by
  by_cases hpad : pad = 1 <;> simp [reserved, hpad]

@[simp] theorem every_released {words : Nat} :
    Every property (released words) ↔ (0 < words → property (.instruction (.release (8 * words)))) := by
  by_cases hwords : 0 < words <;> simp [released, hwords]

end

/-- How many lines carry a key. -/
def uses (key : Nat) (code : Code) : Nat := code.countP fun line => line.key? == some key

section

variable {key : Nat} {rest code : Code}

@[simp] theorem uses_nil : uses key [] = 0 := rfl

@[simp] theorem uses_append {front back : Code} : uses key (front ++ back) = uses key front + uses key back :=
  List.countP_append

@[simp] theorem uses_label {label : Label} :
    uses key (.label label :: rest) = uses key rest + if label.key = key then 1 else 0 := by
  unfold uses
  rw [List.countP_cons]
  simp [Line.key?]

@[simp] theorem uses_text {bytes : List UInt8} :
    uses key (.text number bytes :: rest) = uses key rest + if number + 1 = key then 1 else 0 := by
  unfold uses
  rw [List.countP_cons]
  simp [Line.key?, Label.key]

theorem uses_eq_zero (hcode : code.Every (·.key? = none)) : uses key code = 0 :=
  List.countP_eq_zero.2 fun line hline => by simp [hcode line hline]

@[simp] theorem uses_instructions {list : List Instruction} : uses key (instructions list) = 0 :=
  uses_eq_zero (by simp [Line.key?])

/-- A line that marks nothing carries no key. -/
theorem uses_cons {line : Line} (hline : line.key? = none) : uses key (line :: rest) = uses key rest := by
  have hfirst : uses key [line] = 0 := uses_eq_zero (by simpa using hline)
  rw [← List.singleton_append, uses_append, hfirst, Nat.zero_add]

@[simp] theorem uses_instruction {instruction : Instruction} : uses key (.instruction instruction :: rest) = uses key rest :=
  uses_cons rfl

theorem uses_le_append (front back : Code) : uses key back ≤ uses key (front ++ back) := by
  rw [uses_append]
  exact Nat.le_add_left _ _

/-! ### Looking for a mark -/

theorem seek_of_suffix {whole : Code} (hunique : ∀ key, uses key whole ≤ 1) {label : Label}
    (hsuffix : .label label :: rest <:+ whole) : seek label whole = some rest := by
  obtain ⟨front, rfl⟩ := hsuffix
  induction front with
  | nil =>
    show (if label = label then some rest else _) = _
    rw [if_pos rfl]
  | cons line front ih =>
    have hrest : ∀ key, uses key (front ++ .label label :: rest) ≤ 1 := fun key =>
      Nat.le_trans (uses_le_append [line] _) (hunique key)
    cases line with
    | label other =>
      have hother : other ≠ label := by
        intro hsame
        have hcount := hunique label.key
        simp [hsame] at hcount
      show (if other = label then _ else seek label (front ++ _)) = _
      rw [if_neg hother]
      exact ih hrest
    | _ => exact ih hrest

theorem lookup_of_suffix {whole : Code} (hunique : ∀ key, uses key whole ≤ 1) {bytes : List UInt8}
    (hsuffix : .text number bytes :: rest <:+ whole) : lookup number whole = some bytes := by
  obtain ⟨front, rfl⟩ := hsuffix
  induction front with
  | nil =>
    show (if number = number then some bytes else _) = _
    rw [if_pos rfl]
  | cons line front ih =>
    have hrest : ∀ key, uses key (front ++ .text number bytes :: rest) ≤ 1 := fun key =>
      Nat.le_trans (uses_le_append [line] _) (hunique key)
    cases line with
    | text other _ =>
      have hother : other ≠ number := by
        intro hsame
        have hcount := hunique (number + 1)
        simp [hsame] at hcount
      show (if other = number then _ else lookup number (front ++ _)) = _
      rw [if_neg hother]
      exact ih hrest
    | _ => exact ih hrest

/-! ### Code that was numbered -/

/-- The marks of the code were drawn from `first` up to `next`, each for one line. -/
structure Numbered (first next : Nat) (code : Code) : Prop where
  le : first ≤ next
  once : ∀ key, uses key code ≤ if first < key ∧ key ≤ next then 1 else 0

namespace Numbered

variable {first middle next : Nat} {front back other : Code}

theorem congr (hcode : Numbered first next code) (huses : ∀ key, uses key other = uses key code) :
    Numbered first next other := by
  refine ⟨hcode.le, fun key => ?_⟩
  rw [huses]
  exact hcode.once key

theorem nil (first : Nat) : Numbered first first [] := ⟨Nat.le_refl _, fun _ => Nat.zero_le _⟩

theorem of_unmarked (hcode : ∀ key, uses key code = 0) : Numbered first first code := (nil first).congr hcode

theorem append (hfront : Numbered first middle front) (hback : Numbered middle next back) :
    Numbered first next (front ++ back) := by
  have hle := hfront.le
  have hle' := hback.le
  refine ⟨Nat.le_trans hle hle', fun key => ?_⟩
  have honce := hfront.once key
  have honce' := hback.once key
  rw [uses_append]
  grind

theorem label {mark : Label} (hkey : mark.key = first + 1) : Numbered first (first + 1) [.label mark] := by
  refine ⟨Nat.le_succ _, fun key => ?_⟩
  rw [uses_label, hkey]
  grind [uses_nil]

theorem text (first : Nat) (bytes : List UInt8) : Numbered first (first + 1) [.text first bytes] := by
  refine ⟨Nat.le_succ _, fun key => ?_⟩
  rw [uses_text]
  grind [uses_nil]

end Numbered

@[simp] theorem uses_runtime {depth total : Nat} {name : String} : uses key (runtime depth name total) = 0 := by
  unfold runtime
  split <;> exact uses_instructions

@[simp] theorem uses_truth {depth : Nat} : uses key (truth depth) = 0 := by simp [truth]

end

end Code

/-! ### Making code -/

namespace Emit

variable {α β : Type}

/-- The computation succeeds, and draws the numbers from `first` up to `next`. -/
def Emits (computation : Emit α) (first : Nat) (result : α) (next : Nat) : Prop := computation first = .ok (result, next)

variable {first next : Nat}

@[simp] theorem emits_pure {result made : α} : Emits (pure made) first result next ↔ made = result ∧ first = next := by
  unfold Emits
  show Except.ok (made, first) = Except.ok (result, next) ↔ _
  simp

@[simp] theorem emits_bind {computation : Emit α} {continuation : α → Emit β} {result : β} :
    Emits (computation >>= continuation) first result next ↔
      ∃ made middle, Emits computation first made middle ∧ Emits (continuation made) middle result next := by
  unfold Emits
  show (computation first >>= fun (made, middle) => continuation made middle) = _ ↔ _
  cases computation first with
  | error error => simp [bind, Except.bind]
  | ok made =>
    obtain ⟨made, middle⟩ := made
    constructor
    · intro hemits
      exact ⟨made, middle, rfl, hemits⟩
    · intro hemits
      obtain ⟨_, _, hmade, hemits⟩ := hemits
      obtain ⟨rfl, rfl⟩ := Prod.mk.inj (Except.ok.inj hmade)
      exact hemits

@[simp] theorem emits_label : Emits label first number next ↔ first = number ∧ first + 1 = next := by
  unfold Emits
  show Except.ok (first, first + 1) = Except.ok (number, next) ↔ _
  simp

theorem emits_innermost {around : Surroundings} {keyword : String} {labels : LoopLabels} :
    Emits (innermost around keyword) first labels next ↔ around.loop = some labels ∧ first = next := by
  unfold innermost Emits
  cases around.loop with
  | none => simp [throw, throwThe, MonadExceptOf.throw, StateT.lift, bind, Except.bind]
  | some found =>
    show Except.ok (found, first) = Except.ok (labels, next) ↔ _
    simp

@[simp] theorem not_emits_throw {error : CodegenError} {result : α} : ¬ Emits (throw error) first result next := by
  intro hemits
  have herror : Except.error error = Except.ok (result, next) := hemits
  contradiction

variable {around : Surroundings} {first next : Nat} {made : Code}

theorem emits_location {id : Nat} {location : Location} :
    Emits (Emit.location around (.localVar id)) first location next ↔
      around.allocation.location? id = some location ∧ first = next := by
  cases hlocation : around.allocation.location? id <;> simp [Emit.location, Symbol.local?, hlocation]

theorem local_of_emits_location {symbol : Symbol} {location : Location}
    (hemits : Emits (Emit.location around symbol) first location next) :
    ∃ id, symbol = .localVar id ∧ around.allocation.location? id = some location ∧ first = next := by
  cases symbol with
  | localVar id => exact ⟨id, rfl, emits_location.1 hemits⟩
  | global | unresolved => exact absurd hemits not_emits_throw

/-! ### Texts, methods and calls -/

open Code

theorem emits_text {content : String} : Emits (text content) first (made, number) next ↔
      made = Code.text first (first + 1) content ∧ number = first + 1 ∧ next = first + 2 := by
  simp only [text, emits_bind, emits_label, emits_pure, Prod.mk.injEq]
  constructor
  · intro hemits
    obtain ⟨_, _, ⟨rfl, rfl⟩, _, _, ⟨rfl, rfl⟩, ⟨rfl, rfl⟩, rfl⟩ := hemits
    exact ⟨rfl, rfl, rfl⟩
  · intro hemits
    obtain ⟨rfl, rfl, rfl⟩ := hemits
    exact ⟨_, _, ⟨rfl, rfl⟩, _, _, ⟨rfl, rfl⟩, ⟨rfl, rfl⟩, rfl⟩

theorem numbered_text (first : Nat) (content : String) : Numbered first (first + 2) (Code.text first (first + 1) content) := by
  have hmarks : Numbered first (first + 2) ([.label (.textEnd first)] ++ [.text (first + 1) (Text.utf8 content)]) :=
    (Numbered.label rfl).append (.text (first + 1) _)
  refine hmarks.congr fun key => ?_
  simp [Code.text, Label.key]
  omega

/-- The code that stores the methods of a class, in the order of their declarations. -/
inductive Installed (depth : Nat) : List Tree → Nat → Code → Nat → Prop
  | nil {number : Nat} : Installed depth [] number [] number
  | method {note name sourceName list body rest number made next} (hrest : Installed depth rest (number + 2) made next) :
      Installed depth (.funcDecl note name sourceName list body :: rest) number
        (Code.text number (number + 1) sourceName ++ Code.method depth (number + 1) name ++ made) next
  | other {tree rest number made next} (hrest : Installed depth rest number made next) :
      Installed depth (tree :: rest) number made next

variable {depth : Nat}

theorem installed_of_emits {methods : List Tree} (hemits : Emits (Emit.methods depth methods) first made next) :
    Installed depth methods first made next := by
  induction methods generalizing first made with
  | nil =>
    obtain ⟨rfl, rfl⟩ := emits_pure.1 hemits
    exact .nil
  | cons tree rest ih =>
    cases tree with
    | funcDecl =>
      simp only [Emit.methods, emits_bind, emits_pure] at hemits
      obtain ⟨⟨key, number⟩, _, htext, _, _, hrest, rfl, rfl⟩ := hemits
      obtain ⟨rfl, rfl, rfl⟩ := emits_text.1 htext
      exact .method (ih hrest)
    | _ => exact .other (ih hemits)

theorem Installed.numbered {methods : List Tree} (hinstalled : Installed depth methods first made next) :
    Numbered first next made := by
  induction hinstalled with
  | nil => exact .nil _
  | @method _ _ sourceName _ _ _ _ _ _ _ ih =>
    exact ((numbered_text _ sourceName).append ih).congr fun key => by simp [Code.method]
  | other _ ih => exact ih

/-- A call that is not of a method goes straight to a function, or to what the callee turns out to be. -/
theorem emits_call {note : Note} {callee : Tree} {arguments : List Tree}
    (hcallee : ∀ note object name, callee ≠ .get note object name)
    (hemits : Emits (code around depth (.call note callee arguments)) first made next) :
    ∃ pushed middle, Emits (codeArguments around (depth + padding depth arguments.length) arguments) first pushed middle ∧
      ((∃ name, direct? around callee = some name ∧ middle = next ∧
          made = Code.call depth arguments.length pushed [] (.call name)) ∨
        ∃ target, direct? around callee = none ∧
          Emits (code around (depth + padding depth arguments.length + arguments.length) callee) middle target next ∧
          made = Code.call depth arguments.length pushed (target ++ instructions [.move Register.r10 Register.rax])
            .callAddress) := by
  rw [code] at hemits
  · simp only [emits_bind] at hemits
    obtain ⟨pushed, middle, hpushed, hemits⟩ := hemits
    refine ⟨pushed, middle, hpushed, ?_⟩
    cases hdirect : direct? around callee with
    | some name =>
      rw [hdirect] at hemits
      obtain ⟨rfl, rfl⟩ := emits_pure.1 hemits
      exact .inl ⟨name, rfl, rfl, rfl⟩
    | none =>
      rw [hdirect] at hemits
      simp only [emits_bind, emits_pure] at hemits
      obtain ⟨target, _, htarget, rfl, rfl⟩ := hemits
      exact .inr ⟨target, rfl, htarget, rfl⟩
  · exact hcallee

end Emit

end NanScript
