import NanScript.Proofs.Emission.Marks
import NanScript.Proofs.Nodes

/-!
# The pieces of emitted code

The code of a tree is made of lines of its own and of the code of its parts. `Shape` says how for each construct: which lines
stand between which parts, and for which part the emitter is asked at which depth and with which number. `Made` says that the
code of a tree is put together in this way all the way down, and every property of emitted code that only depends on that is
proved by induction on it.
-/

namespace NanScript

open Code Numbered

/-- What the emitter is asked for: the code of a tree in a loop, at a depth, with the next number for a label. -/
structure Site where
  loop : Option LoopLabels
  depth : Nat
  tree : Tree
  number : Nat

/-- Lines that the emitter writes itself, or the code it gets for a part, with the number it goes on with. -/
inductive Piece where
  | lines (code : Code)
  | part (site : Site) (made : Code) (next : Nat)

namespace Piece

def code : Piece → Code
  | lines code => code
  | part _ made _ => made

/-- The code of pieces. -/
def all (pieces : List Piece) : Code := pieces.flatMap code

@[simp] theorem all_nil : all [] = [] := rfl

variable {rest : List Piece}

@[simp] theorem all_lines {code : Code} : all (.lines code :: rest) = code ++ all rest := rfl

@[simp] theorem all_part {site : Site} {made : Code} {next : Nat} :
    all (.part site made next :: rest) = made ++ all rest := rfl

@[simp] theorem all_append {front back : List Piece} : all (front ++ back) = all front ++ all back := List.flatMap_append

/-- All parts of the pieces have a property. -/
def Each (property : Site → Code → Nat → Prop) (pieces : List Piece) : Prop :=
  ∀ site made next, .part site made next ∈ pieces → property site made next

section

variable {property : Site → Code → Nat → Prop}

@[simp] theorem each_nil : Each property [] := fun _ _ _ hpart => absurd hpart List.not_mem_nil

variable {rest : List Piece}

@[simp] theorem each_lines {code : Code} : Each property (.lines code :: rest) ↔ Each property rest := by
  simp [Each]

@[simp] theorem each_part {site : Site} {made : Code} {next : Nat} :
    Each property (.part site made next :: rest) ↔ property site made next ∧ Each property rest := by
  simp only [Each, List.mem_cons]
  constructor
  · intro heach
    exact ⟨heach _ _ _ (.inl rfl), fun _ _ _ hpart => heach _ _ _ (.inr hpart)⟩
  · rintro ⟨hpart, hrest⟩ _ _ _ (hsame | hmem)
    · cases hsame
      exact hpart
    · exact hrest _ _ _ hmem

@[simp] theorem each_append {front back : List Piece} :
    Each property (front ++ back) ↔ Each property front ∧ Each property back := by
  simp only [Each, List.mem_append]
  constructor
  · intro heach
    exact ⟨fun _ _ _ hpart => heach _ _ _ (.inl hpart), fun _ _ _ hpart => heach _ _ _ (.inr hpart)⟩
  · rintro ⟨hfront, hback⟩ _ _ _ (hpart | hpart)
    · exact hfront _ _ _ hpart
    · exact hback _ _ _ hpart

end

end Piece

namespace Site

open Register
open Piece hiding code

section

variable (loop : Option LoopLabels) (depth : Nat)

inductive Sequence : List Tree → Nat → List Piece → Nat → Prop
  | nil {number : Nat} : Sequence [] number [] number
  | cons {tree : Tree} {rest : List Tree} {number middle next : Nat} {made : Code} {pieces : List Piece}
      (hrest : Sequence rest middle pieces next) :
      Sequence (tree :: rest) number (.part ⟨loop, depth, tree, number⟩ made middle :: pieces) next

inductive Items : List Tree → Nat → List Piece → Nat → Prop
  | nil {number : Nat} : Items [] number [] number
  | cons {tree : Tree} {rest : List Tree} {number middle next : Nat} {made : Code} {pieces : List Piece}
      (hrest : Items rest middle pieces next) :
      Items (tree :: rest) number (.lines (instructions [.push rax]) :: .part ⟨loop, depth + 1, tree, number⟩ made middle ::
        .lines (instructions [.move rsi rax, .move rdi .top] ++ runtime (depth + 1) "list_push" 2 ++ instructions [.pop rax]) ::
        pieces) next

inductive Arguments : List Tree → Nat → List Piece → Nat → Prop
  | nil {number : Nat} : Arguments [] number [] number
  | cons {tree : Tree} {rest : List Tree} {number middle next : Nat} {made : Code} {pieces : List Piece}
      (hrest : Arguments rest number pieces middle) :
      Arguments (tree :: rest) number (pieces ++ [.part ⟨loop, depth + rest.length, tree, middle⟩ made next,
        .lines (instructions [.push rax])]) next

inductive OrNull : Option Tree → Nat → List Piece → Nat → Prop
  | none {number : Nat} : OrNull none number [.lines (runtime depth "dyn_new_null" 0)] number
  | some {tree : Tree} {number next : Nat} {made : Code} :
      OrNull (some tree) number [.part ⟨loop, depth, tree, number⟩ made next] next

inductive OrNothing : Option Tree → Nat → List Piece → Nat → Prop
  | none {number : Nat} : OrNothing none number [] number
  | some {tree : Tree} {number next : Nat} {made : Code} :
      OrNothing (some tree) number [.part ⟨loop, depth, tree, number⟩ made next] next

variable {loop depth}

theorem OrNothing.sequence {tree : Option Tree} {number next : Nat} {pieces : List Piece}
    (hvalue : OrNothing loop depth tree number pieces next) : Sequence loop depth tree.toList number pieces next := by
  cases hvalue with
  | none => exact .nil
  | some => exact .cons .nil

end

/-- The first arguments go to their registers, the call is made, and what is left of the others is given up. -/
def callEnd (depth total : Nat) (jump : Nat → Instruction) : Code :=
  instructions ((Register.arguments.take total).map .pop) ++ instructions [jump total] ++
    released (stackArguments total + padding depth total)

section

variable (outline : Outline) (allocation : Allocation)

/-- The pieces that the code of a tree is made of, and the number behind them. -/
inductive Shape : Site → List Piece → Nat → Prop
  | int {loop depth note value number} : Shape ⟨loop, depth, .int note value, number⟩
      [.lines (instructions [.argumentInt value] ++ runtime depth "dyn_new_int" 1)] number
  | float {loop depth note bits number} : Shape ⟨loop, depth, .float note bits, number⟩
      [.lines (instructions [.argumentWord bits] ++ runtime depth "dyn_new_float" 1)] number
  | bool {loop depth note value number} : Shape ⟨loop, depth, .bool note value, number⟩
      [.lines (instructions [.argumentFlag value] ++ runtime depth "dyn_new_bool" 1)] number
  | null {loop depth note number} : Shape ⟨loop, depth, .null note, number⟩
      [.lines (runtime depth "dyn_new_null" 0)] number
  | str {loop depth note content number} : Shape ⟨loop, depth, .str note content, number⟩
      [.lines (text number (number + 1) content ++ instructions [.textAddress rdi (number + 1)] ++
        runtime depth "dyn_new_str" 1)] (number + 2)
  | array {loop depth note items number pieces next} (hitems : Items loop depth items number pieces next) :
      Shape ⟨loop, depth, .array note items, number⟩ (.lines (runtime depth "list_new" 0) :: pieces) next
  | varLocal {loop depth note name id number location} (hlocation : allocation.location? id = some location) :
      Shape ⟨loop, depth, .var note name (.localVar id), number⟩ [.lines (instructions [.move rax location.place])] number
  | varGlobal {loop depth note name symbol number} (hsymbol : symbol.local? = none)
      (hglobal : (symbol.isGlobal || outline.isGlobal name) = true) :
      Shape ⟨loop, depth, .var note name symbol, number⟩ [.lines (instructions [.move rax (.global name)])] number
  | varFunction {loop depth note name symbol number} (hsymbol : symbol.local? = none)
      (hglobal : (symbol.isGlobal || outline.isGlobal name) = false) :
      Shape ⟨loop, depth, .var note name symbol, number⟩ [.lines (instructions [.functionAddress rax name])] number
  | assignLocal {loop depth note name id value number made next location}
      (hlocation : allocation.location? id = some location) :
      Shape ⟨loop, depth, .assign note name (.localVar id) value, number⟩
        [.part ⟨loop, depth, value, number⟩ made next, .lines (instructions [.move location.place rax])] next
  | assignGlobal {loop depth note name symbol value number made next} (hsymbol : symbol.local? = none)
      (hglobal : (symbol.isGlobal || outline.isGlobal name) = true) :
      Shape ⟨loop, depth, .assign note name symbol value, number⟩
        [.part ⟨loop, depth, value, number⟩ made next, .lines (instructions [.move (.global name) rax])] next
  | binary {loop depth note op left right number first middle second next} (hop : op.isShortCircuit = false) :
      Shape ⟨loop, depth, .binary note op left right, number⟩
        [.part ⟨loop, depth, left, number⟩ first middle, .lines (instructions [.push rax]),
          .part ⟨loop, depth + 1, right, middle⟩ second next,
          .lines (instructions [.move rsi rax, .pop rdi] ++ runtime depth (operator op) 2)] next
  | shortCircuit {loop depth note op left right number first middle second next} (hop : op.isShortCircuit = true) :
      Shape ⟨loop, depth, .binary note op left right, number⟩
        [.part ⟨loop, depth, left, number + 1⟩ first middle,
          .lines (instructions [.push rax] ++ truth (depth + 1) ++
            instructions [.pop rax, .jump (if op = .and then .zero else .nonzero) (.shortEnd number)]),
          .part ⟨loop, depth, right, middle⟩ second next, .lines [.label (.shortEnd number)]] next
  | unary {loop depth note op operand number made next} : Shape ⟨loop, depth, .unary note op operand, number⟩
      [.part ⟨loop, depth, operand, number⟩ made next,
        .lines (instructions [.move rdi rax] ++ runtime depth (unaryOperator op) 1)] next
  | ternary {loop depth note condition positive negative number first second third middle middle' next} :
      Shape ⟨loop, depth, .ternary note condition positive negative, number⟩
        [.part ⟨loop, depth, condition, number + 2⟩ first middle,
          .lines (truth depth ++ instructions [.jump .zero (.ternary number)]),
          .part ⟨loop, depth, positive, middle⟩ second middle',
          .lines (instructions [.jump .always (.ternaryEnd (number + 1))] ++ [.label (.ternary number)]),
          .part ⟨loop, depth, negative, middle'⟩ third next, .lines [.label (.ternaryEnd (number + 1))]] next
  | callMethod {loop depth note note' object name arguments number pieces middle made next}
      (harguments : Arguments loop (depth + padding depth (arguments.length + 1)) arguments number pieces middle) :
      Shape ⟨loop, depth, .call note (.get note' object name) arguments, number⟩
        (.lines (reserved (padding depth (arguments.length + 1))) :: (pieces ++
          [.lines (text middle (middle + 1) name),
            .part ⟨loop, depth + padding depth (arguments.length + 1) + arguments.length, object, middle + 2⟩ made next,
            .lines (instructions [.push rax, .move rdi rax, .textAddress rsi (middle + 1)] ++
              runtime (depth + padding depth (arguments.length + 1) + arguments.length + 1) "aria_obj_get" 2 ++
              instructions [.move r10 rax] ++ callEnd depth (arguments.length + 1) .callAddress)])) next
  | callDirect {loop depth note callee arguments number pieces next name}
      (hcallee : ∀ note object name, callee ≠ .get note object name)
      (hdirect : Emit.direct? ⟨outline, allocation, loop⟩ callee = some name)
      (harguments : Arguments loop (depth + padding depth arguments.length) arguments number pieces next) :
      Shape ⟨loop, depth, .call note callee arguments, number⟩
        (.lines (reserved (padding depth arguments.length)) :: (pieces ++
          [.lines (callEnd depth arguments.length (.call name))])) next
  | callValue {loop depth note callee arguments number pieces middle made next}
      (hcallee : ∀ note object name, callee ≠ .get note object name)
      (hdirect : Emit.direct? ⟨outline, allocation, loop⟩ callee = none)
      (harguments : Arguments loop (depth + padding depth arguments.length) arguments number pieces middle) :
      Shape ⟨loop, depth, .call note callee arguments, number⟩
        (.lines (reserved (padding depth arguments.length)) :: (pieces ++
          [.part ⟨loop, depth + padding depth arguments.length + arguments.length, callee, middle⟩ made next,
            .lines (instructions [.move r10 rax] ++ callEnd depth arguments.length .callAddress)])) next
  | get {loop depth note object name number made next} : Shape ⟨loop, depth, .get note object name, number⟩
      [.lines (text number (number + 1) name), .part ⟨loop, depth, object, number + 2⟩ made next,
        .lines (instructions [.move rdi rax, .textAddress rsi (number + 1)] ++ runtime depth "aria_obj_get" 2)] next
  | set {loop depth note object name value number first middle second next} :
      Shape ⟨loop, depth, .set note object name value, number⟩
        [.lines (text number (number + 1) name), .part ⟨loop, depth, object, number + 2⟩ first middle,
          .lines (instructions [.push rax]), .part ⟨loop, depth + 1, value, middle⟩ second next,
          .lines (instructions [.move rdx rax, .pop rdi, .textAddress rsi (number + 1)] ++
            runtime depth "aria_obj_set" 3)] next
  | indexGet {loop depth note object index number first middle second next} :
      Shape ⟨loop, depth, .indexGet note object index, number⟩
        [.part ⟨loop, depth, object, number⟩ first middle, .lines (instructions [.push rax]),
          .part ⟨loop, depth + 1, index, middle⟩ second next,
          .lines (instructions [.move rsi rax, .pop rdi] ++ runtime depth "list_get" 2)] next
  | indexSet {loop depth note object index value number first middle second middle' third next} :
      Shape ⟨loop, depth, .indexSet note object index value, number⟩
        [.part ⟨loop, depth, object, number⟩ first middle, .lines (instructions [.push rax]),
          .part ⟨loop, depth + 1, index, middle⟩ second middle', .lines (instructions [.push rax]),
          .part ⟨loop, depth + 2, value, middle'⟩ third next,
          .lines (instructions [.move rdx rax, .pop rsi, .pop rdi] ++ runtime depth "list_set" 3)] next
  | new {loop depth note className number methods installed next} (hclass : outline.methods? className = some methods)
      (hmethods : (Emit.methods (depth + 1) methods).Emits number installed next) :
      Shape ⟨loop, depth, .new note className, number⟩
        [.lines (runtime depth "aria_alloc_object" 0 ++ instructions [.push rax] ++ installed ++ instructions [.pop rax])] next
  | varDecl {loop depth note name id constant initial number pieces next location}
      (hinitial : OrNull loop depth initial number pieces next)
      (hlocation : allocation.location? id = some location) :
      Shape ⟨loop, depth, .varDecl note name (.localVar id) constant initial, number⟩
        (pieces ++ [.lines (instructions [.move location.place rax])]) next
  | block {loop depth note statements number pieces next} (hstatements : Sequence loop depth statements number pieces next) :
      Shape ⟨loop, depth, .block note statements, number⟩ pieces next
  | ifElse {loop depth note condition positive negative number first second pieces middle middle' next}
      (hnegative : OrNothing loop depth negative middle' pieces next) :
      Shape ⟨loop, depth, .ifElse note condition positive negative, number⟩
        (.part ⟨loop, depth, condition, number + 2⟩ first middle ::
          .lines (truth depth ++ instructions [.jump .zero (.otherwise number)]) ::
          .part ⟨loop, depth, positive, middle⟩ second middle' ::
          .lines (instructions [.jump .always (.finish (number + 1))] ++ [.label (.otherwise number)]) ::
          (pieces ++ [.lines [.label (.finish (number + 1))]])) next
  | whileLoop {loop depth note condition body step number first second pieces middle middle' next}
      (hstep : OrNothing loop depth step middle' pieces next) :
      Shape ⟨loop, depth, .whileLoop note condition body step, number⟩
        (.lines ([.label (.again number)] ++ poll (number + 3) [] []) ::
          .part ⟨loop, depth, condition, number + 4⟩ first middle ::
          .lines (truth depth ++ instructions [.jump .zero (.finish (number + 2))]) ::
          .part ⟨some ⟨number + 1, number + 2⟩, depth, body, middle⟩ second middle' ::
          .lines [.label (.next (number + 1))] ::
          (pieces ++ [.lines (instructions [.jump .always (.again number)] ++ [.label (.finish (number + 2))])])) next
  | ret {loop depth note value number pieces next} (hvalue : OrNull loop depth value number pieces next) :
      Shape ⟨loop, depth, .ret note value, number⟩ (pieces ++ [.lines (instructions [.jump .always .ret])]) next
  | breakLoop {loop depth note number labels} (hloop : loop = some labels) :
      Shape ⟨loop, depth, .breakLoop note, number⟩ [.lines (instructions [.jump .always (.finish labels.finish)])] number
  | continueLoop {loop depth note number labels} (hloop : loop = some labels) :
      Shape ⟨loop, depth, .continueLoop note, number⟩ [.lines (instructions [.jump .always (.next labels.next)])] number
  | funcDecl {loop depth note name sourceName list body number} :
      Shape ⟨loop, depth, .funcDecl note name sourceName list body, number⟩ [] number
  | classDecl {loop depth note name methods number} : Shape ⟨loop, depth, .classDecl note name methods, number⟩ [] number

/-- The code of a site is that of its pieces, and so on for its parts. -/
inductive Made : Site → Code → Nat → Prop
  | intro {site : Site} {pieces : List Piece} {next : Nat} (hshape : site.Shape outline allocation pieces next)
      (hparts : ∀ part made next, .part part made next ∈ pieces → Made part made next) : Made site (all pieces) next

end

variable {next : Nat} {made : Code}

/-! ### What the emitter makes -/

open Emit

variable {around : Surroundings} {depth first : Nat} {note : Note} {symbol : Symbol}

/-- The emitter gives the code for the site. -/
def Given (outline : Outline) (allocation : Allocation) (site : Site) (made : Code) (next : Nat) : Prop :=
  (code ⟨outline, allocation, site.loop⟩ site.depth site.tree).Emits site.number made next

theorem given_of_emits {tree : Tree} (hemits : (code around depth tree).Emits first made next) :
    Given around.outline around.allocation ⟨around.loop, depth, tree, first⟩ made next := hemits

/-- The code is put together from pieces that come as a pattern says, with what the emitter gives for their parts. -/
def Composed (around : Surroundings) (pattern : List Piece → Prop) (made : Code) : Prop :=
  ∃ pieces, pattern pieces ∧ Each (Given around.outline around.allocation) pieces ∧ made = all pieces

theorem shape_of_load {name : String} (hemits : (load around name symbol).Emits first made next) :
    Composed around (Shape around.outline around.allocation ⟨around.loop, depth, .var note name symbol, first⟩ · next) made := by
  cases symbol with
  | localVar id =>
    simp only [load, emits_bind, emits_location, emits_pure] at hemits
    obtain ⟨location, _, ⟨hlocation, rfl⟩, rfl, rfl⟩ := hemits
    exact ⟨_, .varLocal hlocation, by simp, by simp⟩
  | global | unresolved =>
    simp only [load] at hemits
    split at hemits
    · next hglobal =>
      obtain ⟨rfl, rfl⟩ := emits_pure.1 hemits
      exact ⟨_, .varGlobal rfl hglobal, by simp, by simp⟩
    · next hglobal =>
      obtain ⟨rfl, rfl⟩ := emits_pure.1 hemits
      exact ⟨_, .varFunction rfl (Bool.eq_false_iff.2 hglobal), by simp, by simp⟩

theorem shape_of_store {middle : Nat} {name : String} {value : Tree} {stored : Code}
    (hvalue : (code around depth value).Emits first made middle) (hemits : (store around name symbol).Emits middle stored next) :
    Composed around (Shape around.outline around.allocation ⟨around.loop, depth, .assign note name symbol value, first⟩ · next)
      (made ++ stored) := by
  cases symbol with
  | localVar id =>
    simp only [store, emits_bind, emits_location, emits_pure] at hemits
    obtain ⟨location, _, ⟨hlocation, rfl⟩, rfl, rfl⟩ := hemits
    exact ⟨_, .assignLocal hlocation, by simpa using given_of_emits hvalue, by simp⟩
  | global | unresolved =>
    simp only [store] at hemits
    split at hemits
    · next hglobal =>
      obtain ⟨rfl, rfl⟩ := emits_pure.1 hemits
      exact ⟨_, .assignGlobal rfl hglobal, by simpa using given_of_emits hvalue, by simp⟩
    · exact absurd hemits not_emits_throw

variable {trees : List Tree}

theorem sequence_of_emits (hemits : (codeAll around depth trees).Emits first made next) :
    Composed around (Sequence around.loop depth trees first · next) made := by
  induction trees generalizing first made with
  | nil =>
    obtain ⟨rfl, rfl⟩ := emits_pure.1 hemits
    exact ⟨[], .nil, by simp, rfl⟩
  | cons tree rest ih =>
    simp only [codeAll, emits_bind, emits_pure] at hemits
    obtain ⟨_, _, htree, _, _, hrest, rfl, rfl⟩ := hemits
    obtain ⟨pieces, hpieces, hparts, rfl⟩ := ih hrest
    exact ⟨_, .cons hpieces, by simpa using ⟨given_of_emits htree, hparts⟩, by simp⟩

theorem items_of_emits (hemits : (codeItems around depth trees).Emits first made next) :
    Composed around (Items around.loop depth trees first · next) made := by
  induction trees generalizing first made with
  | nil =>
    obtain ⟨rfl, rfl⟩ := emits_pure.1 hemits
    exact ⟨[], .nil, by simp, rfl⟩
  | cons tree rest ih =>
    simp only [codeItems, emits_bind, emits_pure] at hemits
    obtain ⟨_, _, htree, _, _, hrest, rfl, rfl⟩ := hemits
    obtain ⟨pieces, hpieces, hparts, rfl⟩ := ih hrest
    exact ⟨_, .cons hpieces, by simpa using ⟨given_of_emits htree, hparts⟩, by simp [item]⟩

theorem arguments_of_emits (hemits : (codeArguments around depth trees).Emits first made next) :
    Composed around (Arguments around.loop depth trees first · next) made := by
  induction trees generalizing first made next with
  | nil =>
    obtain ⟨rfl, rfl⟩ := emits_pure.1 hemits
    exact ⟨[], .nil, by simp, rfl⟩
  | cons tree rest ih =>
    simp only [codeArguments, emits_bind, emits_pure] at hemits
    obtain ⟨_, _, hrest, _, _, htree, rfl, rfl⟩ := hemits
    obtain ⟨pieces, hpieces, hparts, rfl⟩ := ih hrest
    exact ⟨_, .cons hpieces, by simpa using ⟨hparts, given_of_emits htree⟩, by simp⟩

variable {tree : Option Tree}

theorem orNull_of_emits (hemits : (codeOrNull around depth tree).Emits first made next) :
    Composed around (OrNull around.loop depth tree first · next) made := by
  cases tree with
  | none =>
    obtain ⟨rfl, rfl⟩ := emits_pure.1 hemits
    exact ⟨_, .none, by simp, by simp⟩
  | some tree => exact ⟨_, .some, by simpa using given_of_emits hemits, by simp⟩

theorem orNothing_of_emits (hemits : (codeOrNothing around depth tree).Emits first made next) :
    Composed around (OrNothing around.loop depth tree first · next) made := by
  cases tree with
  | none =>
    obtain ⟨rfl, rfl⟩ := emits_pure.1 hemits
    exact ⟨_, .none, by simp, by simp⟩
  | some tree => exact ⟨_, .some, by simpa using given_of_emits hemits, by simp⟩

/-- Whatever code the emitter makes for a site is put together as a shape says. -/
theorem shape_of_emits {tree : Tree} (hemits : (code around depth tree).Emits first made next) :
    Composed around (Shape around.outline around.allocation ⟨around.loop, depth, tree, first⟩ · next) made := by
  cases tree with
    (try simp only [code, emits_bind, emits_label, emits_innermost, emits_pure] at hemits)
  | int | float | bool | null | funcDecl | classDecl =>
    obtain ⟨rfl, rfl⟩ := hemits
    exact ⟨_, by constructor, by simp, by simp⟩
  | str _ content =>
    obtain ⟨⟨data, number⟩, _, htext, rfl, rfl⟩ := hemits
    obtain ⟨rfl, rfl, rfl⟩ := emits_text.1 htext
    exact ⟨_, .str, by simp, by simp⟩
  | array _ items =>
    obtain ⟨_, _, hitems, rfl, rfl⟩ := hemits
    obtain ⟨pieces, hpieces, hparts, rfl⟩ := items_of_emits hitems
    exact ⟨_, .array hpieces, by simpa using hparts, by simp⟩
  | var => exact shape_of_load hemits
  | assign =>
    obtain ⟨_, _, hvalue, _, _, hstore, rfl, rfl⟩ := hemits
    exact shape_of_store hvalue hstore
  | binary =>
    split at hemits <;> simp only [emits_bind, emits_label, emits_pure] at hemits
    · next hop =>
      obtain ⟨_, _, ⟨rfl, rfl⟩, _, _, hleft, _, _, hright, rfl, rfl⟩ := hemits
      exact ⟨_, .shortCircuit hop, by simpa using ⟨given_of_emits hleft, given_of_emits hright⟩, by simp [shortCircuit]⟩
    · next hop =>
      obtain ⟨_, _, hleft, _, _, hright, rfl, rfl⟩ := hemits
      exact ⟨_, .binary (Bool.eq_false_iff.2 hop), by simpa using ⟨given_of_emits hleft, given_of_emits hright⟩,
        by simp [binary]⟩
  | unary =>
    obtain ⟨_, _, hoperand, rfl, rfl⟩ := hemits
    exact ⟨_, .unary, by simpa using given_of_emits hoperand, by simp [unary]⟩
  | ternary =>
    obtain ⟨_, _, ⟨rfl, rfl⟩, _, _, ⟨rfl, rfl⟩, _, _, hcondition, _, _, hpositive, _, _, hnegative, rfl, rfl⟩ := hemits
    exact ⟨_, .ternary, by simpa using ⟨given_of_emits hcondition, given_of_emits hpositive, given_of_emits hnegative⟩,
      by simp [ternary]⟩
  | call _ callee arguments =>
    cases callee with
    | get _ object name =>
      simp only [code, emits_bind, emits_pure] at hemits
      obtain ⟨_, _, hpushed, ⟨key, number⟩, _, htext, _, _, htarget, rfl, rfl⟩ := hemits
      obtain ⟨rfl, rfl, rfl⟩ := emits_text.1 htext
      obtain ⟨pieces, hpieces, hparts, rfl⟩ := arguments_of_emits hpushed
      exact ⟨_, .callMethod hpieces, by simpa using ⟨hparts, given_of_emits htarget⟩, by simp [call, receiver, callEnd]⟩
    | _ =>
      obtain ⟨_, _, hpushed, ⟨_, hdirect, rfl, rfl⟩ | ⟨_, hdirect, htarget, rfl⟩⟩ :=
        emits_call (fun _ _ _ => Tree.noConfusion) hemits
      all_goals obtain ⟨pieces, hpieces, hparts, rfl⟩ := arguments_of_emits hpushed
      · exact ⟨_, .callDirect (fun _ _ _ => Tree.noConfusion) hdirect hpieces, by simpa using hparts,
          by simp [call, callEnd]⟩
      · exact ⟨_, .callValue (fun _ _ _ => Tree.noConfusion) hdirect hpieces, by simpa using ⟨hparts, given_of_emits htarget⟩,
          by simp [call, callEnd]⟩
  | get =>
    obtain ⟨⟨key, number⟩, _, htext, _, _, hobject, rfl, rfl⟩ := hemits
    obtain ⟨rfl, rfl, rfl⟩ := emits_text.1 htext
    exact ⟨_, .get, by simpa using given_of_emits hobject, by simp [Code.get]⟩
  | set =>
    obtain ⟨⟨key, number⟩, _, htext, _, _, hobject, _, _, hvalue, rfl, rfl⟩ := hemits
    obtain ⟨rfl, rfl, rfl⟩ := emits_text.1 htext
    exact ⟨_, .set, by simpa using ⟨given_of_emits hobject, given_of_emits hvalue⟩, by simp [Code.set]⟩
  | indexGet =>
    obtain ⟨_, _, hobject, _, _, hindex, rfl, rfl⟩ := hemits
    exact ⟨_, .indexGet, by simpa using ⟨given_of_emits hobject, given_of_emits hindex⟩, by simp [indexGet]⟩
  | indexSet =>
    obtain ⟨_, _, hobject, _, _, hindex, _, _, hvalue, rfl, rfl⟩ := hemits
    exact ⟨_, .indexSet, by simpa using ⟨given_of_emits hobject, given_of_emits hindex, given_of_emits hvalue⟩,
      by simp [indexSet]⟩
  | new =>
    rw [Emit.new] at hemits
    split at hemits
    · next methods hclass =>
      simp only [emits_bind, emits_pure] at hemits
      obtain ⟨_, _, hmethods, rfl, rfl⟩ := hemits
      exact ⟨_, .new hclass hmethods, by simp, by simp [Code.new]⟩
    · exact absurd hemits not_emits_throw
  | varDecl =>
    obtain ⟨_, _, hvalue, _, _, hlocated, rfl, rfl⟩ := hemits
    obtain ⟨_, rfl, hlocation, rfl⟩ := local_of_emits_location hlocated
    obtain ⟨pieces, hpieces, hparts, rfl⟩ := orNull_of_emits hvalue
    exact ⟨_, .varDecl hpieces hlocation, by simpa using hparts, by simp⟩
  | block =>
    obtain ⟨pieces, hpieces, hparts, rfl⟩ := sequence_of_emits hemits
    exact ⟨_, .block hpieces, hparts, rfl⟩
  | ifElse =>
    obtain ⟨_, _, ⟨rfl, rfl⟩, _, _, ⟨rfl, rfl⟩, _, _, hcondition, _, _, hpositive, _, _, hnegative, rfl, rfl⟩ := hemits
    obtain ⟨pieces, hpieces, hparts, rfl⟩ := orNothing_of_emits hnegative
    exact ⟨_, .ifElse hpieces, by simpa using ⟨given_of_emits hcondition, given_of_emits hpositive, hparts⟩,
      by simp [ifElse]⟩
  | whileLoop =>
    obtain ⟨_, _, ⟨rfl, rfl⟩, _, _, ⟨rfl, rfl⟩, _, _, ⟨rfl, rfl⟩, _, _, ⟨rfl, rfl⟩, _, _, hcondition, _, _, hbody, _, _, hstep,
      rfl, rfl⟩ := hemits
    obtain ⟨pieces, hpieces, hparts, rfl⟩ := orNothing_of_emits hstep
    exact ⟨_, .whileLoop hpieces, by simpa using ⟨given_of_emits hcondition, given_of_emits hbody, hparts⟩,
      by simp [whileLoop]⟩
  | ret =>
    obtain ⟨_, _, hvalue, rfl, rfl⟩ := hemits
    obtain ⟨pieces, hpieces, hparts, rfl⟩ := orNull_of_emits hvalue
    exact ⟨_, .ret hpieces, by simpa using hparts, by simp⟩
  | breakLoop =>
    obtain ⟨_, _, ⟨hloop, rfl⟩, rfl, rfl⟩ := hemits
    exact ⟨_, .breakLoop hloop, by simp, by simp⟩
  | continueLoop =>
    obtain ⟨_, _, ⟨hloop, rfl⟩, rfl, rfl⟩ := hemits
    exact ⟨_, .continueLoop hloop, by simp, by simp⟩

/-! ### The numbers in the code of a tree -/

/-- The marks of the code were drawn from the number of the site on. -/
def Numbering (site : Site) (made : Code) (next : Nat) : Prop := Numbered site.number next made

section

variable {outline : Outline} {allocation : Allocation} {loop : Option LoopLabels} {depth number next : Nat}
  {pieces : List Piece} {trees : List Tree} {tree : Option Tree} {site : Site} {key : Nat}

theorem uses_callEnd {total : Nat} {jump : Nat → Instruction} : uses key (callEnd depth total jump) = 0 := by
  simp [callEnd, released]

theorem uses_reserved {pad : Nat} : uses key (reserved pad) = 0 := by simp [reserved]

variable (hparts : Each Numbering pieces)

include hparts

theorem Sequence.numbered (hsequence : Sequence loop depth trees number pieces next) : Numbered number next (all pieces) := by
  induction hsequence with
  | nil => exact .nil _
  | cons _ ih =>
    obtain ⟨htree, hrest⟩ := each_part.1 hparts
    exact append htree (ih hrest)

theorem Items.numbered (hitems : Items loop depth trees number pieces next) : Numbered number next (all pieces) := by
  induction hitems with
  | nil => exact .nil _
  | cons _ ih =>
    simp only [each_lines, each_part] at hparts
    exact (append hparts.1 (ih hparts.2)).congr fun key => by simp

theorem Arguments.numbered (harguments : Arguments loop depth trees number pieces next) : Numbered number next (all pieces) := by
  induction harguments with
  | nil => exact .nil _
  | cons _ ih =>
    simp only [each_append, each_lines, each_part] at hparts
    exact (append (ih hparts.1) hparts.2.1).congr fun key => by simp

theorem OrNull.numbered (hvalue : OrNull loop depth tree number pieces next) : Numbered number next (all pieces) := by
  cases hvalue with
  | none => exact .of_unmarked fun key => by simp
  | some => exact congr (each_part.1 hparts).1 fun key => by simp

/-- What a construct draws itself, it draws before its parts are made. -/
theorem Shape.numbered (hshape : site.Shape outline allocation pieces next) : site.Numbering (all pieces) next := by
  cases hshape with
    try simp only [each_lines, each_part, each_append, each_nil, and_true] at hparts
  | int | float | bool | null | varLocal | varGlobal | varFunction | breakLoop | continueLoop | funcDecl | classDecl =>
    exact .of_unmarked fun key => by simp
  | @str _ _ _ content => exact (numbered_text _ content).congr fun key => by simp
  | array hitems => exact (hitems.numbered hparts).congr fun key => by simp
  | block hstatements => exact hstatements.numbered hparts
  | varDecl hvalue | ret hvalue => exact (hvalue.numbered hparts).congr fun key => by simp
  | assignLocal | assignGlobal | unary => exact congr hparts fun key => by simp
  | binary | indexGet => exact (append hparts.1 hparts.2).congr fun key => by simp
  | indexSet => exact (append hparts.1 (.append hparts.2.1 hparts.2.2)).congr fun key => by simp
  | @get _ _ _ _ name => exact ((numbered_text _ name).append hparts).congr fun key => by simp
  | @set _ _ _ _ name => exact ((numbered_text _ name).append (.append hparts.1 hparts.2)).congr fun key => by simp
  | new _ hmethods => exact (installed_of_emits hmethods).numbered.congr fun key => by simp
  | callDirect _ _ harguments =>
    exact (harguments.numbered hparts).congr fun key => by simp [uses_callEnd, uses_reserved]
  | callValue _ _ harguments =>
    exact ((harguments.numbered hparts.1).append hparts.2).congr fun key => by simp [uses_callEnd, uses_reserved]
  | @callMethod _ _ _ _ _ name _ _ _ _ _ _ harguments =>
    exact ((harguments.numbered hparts.1).append ((numbered_text _ name).append hparts.2)).congr fun key => by
      simp [uses_callEnd, uses_reserved]
  | @shortCircuit _ _ _ _ _ _ number =>
    have hend : Numbered number (number + 1) [.label (.shortEnd number)] := .label rfl
    refine (hend.append (.append hparts.1 hparts.2)).congr fun key => ?_
    simp
    omega
  | @ternary _ _ _ _ _ _ number =>
    have hends : Numbered number (number + 2) ([.label (.ternary number)] ++ [.label (.ternaryEnd (number + 1))]) :=
      (label rfl).append (.label rfl)
    refine (hends.append (.append hparts.1 (.append hparts.2.1 hparts.2.2))).congr fun key => ?_
    simp
    omega
  | @ifElse _ _ _ _ _ _ number _ _ _ _ _ _ hnegative =>
    have hends : Numbered number (number + 2) ([.label (.otherwise number)] ++ [.label (.finish (number + 1))]) :=
      (label rfl).append (.label rfl)
    refine (hends.append (.append hparts.1 (.append hparts.2.1 (hnegative.sequence.numbered hparts.2.2)))).congr fun key => ?_
    simp
    omega
  | @whileLoop _ _ _ _ _ _ number _ _ _ _ _ _ hstep =>
    have hends : Numbered number (number + 4) ([.label (.again number)] ++ ([.label (.next (number + 1))] ++
        ([.label (.finish (number + 2))] ++ [.label (.safe (number + 3))]))) :=
      (label rfl).append ((label rfl).append ((label rfl).append (.label rfl)))
    refine (hends.append (.append hparts.1 (.append hparts.2.1 (hstep.sequence.numbered hparts.2.2)))).congr fun key => ?_
    simp [Code.poll]
    omega

omit hparts in
/-- The code of a tree has the numbers that were drawn for it, each on one line. -/
theorem Made.numbered {made : Code} (hmade : site.Made outline allocation made next) : site.Numbering made next := by
  induction hmade with
  | intro hshape _ ih => exact hshape.numbered ih

end

end Site

end NanScript
