import Mathlib
import NanScript.Proofs.Allocation.Access
import NanScript.Proofs.Allocation.LinearScan
import NanScript.Proofs.Locals

/-!
# Variables that share a location

Two variables get the same location only if their intervals are apart. What has to be shown is that being apart is enough:
on no path does a variable find the other's value in its place.

The numbers of a walk are not the order of execution. What holds all along is `Intact`: at the level of a number, each
variable in sight whose interval reaches that number holds its place. Inside of an expression the level can stay where it
is, because all that is written there is in sight and reaches it. Statements raise the level, and the only way back to a
smaller number is a loop. There the stretched intervals come in: an interval that reaches the loop from before does not end
in it, so what is intact at the end of the loop is intact at its beginning.
-/

namespace NanScript

open Walk NanScript.Interval NanScript.Tree Meets List

/-- Functions and classes are not found inside of functions. -/
def Tree.IsPlain : Tree → Prop
  | funcDecl .. | classDecl .. => False
  | _ => True

theorem Tree.ValueIn.isPlain {locals : List Nat} {tree : Tree} (hvalue : tree.ValueIn locals) : tree.IsPlain := by
  cases tree with
  | funcDecl | classDecl => contradiction
  | _ => trivial

/-! ### A walk goes forward -/

namespace Walk

/-- A later state of a walk. -/
structure Grows (old new : Walk) : Prop where
  next : old.next ≤ new.next
  widens : Widens old.intervals new.intervals
  loops : ∀ span ∈ old.loops, span ∈ new.loops
  nodup : (old.intervals.map (·.var)).Nodup → (new.intervals.map (·.var)).Nodup

namespace Grows

theorem refl (walk : Walk) : Grows walk walk := ⟨Nat.le_refl _, .refl _, fun _ h => h, fun h => h⟩

theorem trans {first second third : Walk} (h : Grows first second) (h' : Grows second third) : Grows first third :=
  ⟨Nat.le_trans h.next h'.next, h.widens.trans h'.widens, fun span hspan => h'.loops span (h.loops span hspan),
    fun hnodup => h'.nodup (h.nodup hnodup)⟩

end Grows

section

variable (walk : Walk)

theorem grows_step : Grows walk walk.step := ⟨Nat.le_succ _, .refl _, fun _ h => h, fun h => h⟩

theorem Grows.of_step {old new : Walk} (h : Grows old.step new) : Grows old new := (grows_step old).trans h

theorem grows_record (symbol : Symbol) (index : Nat) : Grows walk (walk.record symbol index) := by
  unfold record
  cases symbol.local? with
  | none => exact .refl walk
  | some var => exact ⟨Nat.le_refl _, widens_record var index _, fun _ h => h, nodup_record var index⟩

theorem grows_leaveLoop (start : Nat) : Grows walk (walk.leaveLoop start) :=
  ⟨Nat.le_refl _, .refl _, fun _ hspan => mem_append_left _ hspan, fun h => h⟩

theorem visitOption_eq (tree : Option Tree) : walk.visitOption tree = walk.visitAll tree.toList := by
  cases tree <;> rfl

theorem grows_visitAll_of {trees : List Tree} (htrees : ∀ tree ∈ trees, ∀ walk : Walk, Grows walk.step (walk.visit tree)) :
    Grows walk (walk.visitAll trees) := by
  induction trees generalizing walk with
  | nil => exact .refl walk
  | cons tree rest ih =>
    obtain ⟨htree, hrest⟩ := forall_mem_cons.1 htrees
    exact (htree walk).of_step.trans (ih _ hrest)

theorem grows_visit_step (tree : Tree) : Grows walk.step (walk.visit tree) := by
  induction tree using of_children generalizing walk with
  | hstep tree ih =>
    have hchildren := fun walk => grows_visitAll_of walk ih
    cases tree with simp only [visit, visitOption_eq]
    | funcDecl | classDecl => exact .refl walk.step
    | var _ _ symbol => exact grows_record walk.step symbol walk.next
    | assign _ _ symbol => exact (hchildren walk.step).trans (grows_record _ symbol walk.next)
    | varDecl _ _ symbol => exact (grows_record _ symbol walk.next).trans (hchildren _)
    | whileLoop => exact (hchildren walk.step).trans (grows_leaveLoop _ walk.next)
    | _ => exact hchildren walk.step

theorem grows_visitAll (trees : List Tree) : Grows walk (walk.visitAll trees) :=
  grows_visitAll_of walk fun tree _ walk => grows_visit_step walk tree

theorem grows_visitOption (tree : Option Tree) : Grows walk (walk.visitOption tree) := by
  rw [visitOption_eq]
  exact grows_visitAll walk tree.toList

theorem grows_visit (tree : Tree) : Grows walk (walk.visit tree) := (grows_visit_step walk tree).of_step

theorem lt_next_visit (tree : Tree) : walk.next < (walk.visit tree).next := (grows_visit_step walk tree).next

theorem exists_visit_of_mem {trees : List Tree} {tree : Tree} (htree : tree ∈ trees) :
    ∃ between : Walk, Grows walk between ∧ Grows (between.visit tree) (walk.visitAll trees) := by
  induction trees generalizing walk with
  | nil => contradiction
  | cons first rest ih =>
    rcases mem_cons.1 htree with rfl | htree
    · exact ⟨walk, .refl walk, grows_visitAll _ rest⟩
    · obtain ⟨between, hbefore, hafter⟩ := ih (walk.visit first) htree
      exact ⟨between, (grows_visit walk first).trans hbefore, hafter⟩

/-- Each child is visited on the way. -/
theorem exists_visit_child {tree child : Tree} (hplain : tree.IsPlain) (hchild : child ∈ tree.children) :
    ∃ between : Walk, Grows walk between ∧ Grows (between.visit child) (walk.visit tree) := by
  obtain ⟨between, hbefore, hafter⟩ := exists_visit_of_mem walk.step hchild
  cases tree with simp only [visit, visitOption_eq]
  | funcDecl | classDecl => contradiction
  | assign _ _ symbol => exact ⟨between, hbefore.of_step, hafter.trans (grows_record _ symbol walk.next)⟩
  | varDecl _ _ symbol =>
    obtain ⟨between, hbefore, hafter⟩ := exists_visit_of_mem (walk.step.record symbol walk.next) hchild
    exact ⟨between, ((grows_record _ symbol walk.next).trans hbefore).of_step, hafter⟩
  | whileLoop => exact ⟨between, hbefore.of_step, hafter.trans (grows_leaveLoop _ walk.next)⟩
  | var => contradiction
  | _ => exact ⟨between, hbefore.of_step, hafter⟩

end

theorem covers_record {walk : Walk} {symbol : Symbol} {index var : Nat} (hvar : var ∈ symbol.local?) :
    Covers (walk.record symbol index).intervals var index := by
  have hlocal : symbol.local? = some var := hvar
  unfold record
  rw [hlocal]
  exact Interval.covers_record var index walk.intervals

end Walk

/-! ### Layouts -/

/-- Places for the variables of some intervals. -/
structure Layout {κ : Type} (intervals : List Interval) (loops : List LoopSpan) (place : Nat → κ) : Prop where
  unique : ∀ a ∈ intervals, ∀ b ∈ intervals, a.var = b.var → a = b
  /-- Intervals that share a number have different places. -/
  apart : ∀ a ∈ intervals, ∀ b ∈ intervals, a.var ≠ b.var → a.start ≤ b.stop → b.start ≤ a.stop → place a.var ≠ place b.var
  /-- An interval that enters a loop from before does not end in it. -/
  content : ∀ a ∈ intervals, ∀ span ∈ loops, a.start < span.start → span.start ≤ a.stop → span.stop ≤ a.stop

/-- All that a walk has met is laid out. -/
structure Fits (intervals : List Interval) (loops : List LoopSpan) (walk : Walk) : Prop where
  widens : Widens walk.intervals intervals
  loops : ∀ span ∈ walk.loops, span ∈ loops

theorem Fits.of_grows {intervals : List Interval} {loops : List LoopSpan} {old new : Walk} (hfits : Fits intervals loops new)
    (hgrows : Grows old new) : Fits intervals loops old :=
  ⟨hgrows.widens.trans hfits.widens, fun span hspan => hfits.loops span (hgrows.loops span hspan)⟩

/-- Every variable in sight whose interval reaches the level holds its place. -/
def Intact {κ : Type} (intervals : List Interval) (place : Nat → κ) (level : Nat) (locals : List Nat)
    (store : κ → Option Nat) : Prop :=
  ∀ interval ∈ intervals, interval.var ∈ locals → level ≤ interval.stop → store (place interval.var) = some interval.var

/-- The intervals of the variables in sight have begun. -/
def Begun (intervals : List Interval) (level : Nat) (locals : List Nat) : Prop :=
  ∀ interval ∈ intervals, interval.var ∈ locals → interval.start ≤ level

/-- What is in sight behind a statement. -/
def Tree.sight (tree : Tree) (locals : List Nat) : Exit → List Nat
  | .normal => tree.declares ++ locals
  | _ => locals

theorem Tree.subset_sight (tree : Tree) (locals : List Nat) (exit : Exit) : ∀ id ∈ locals, id ∈ tree.sight locals exit := by
  intro id hid
  cases exit with
  | normal => exact mem_append_right _ hid
  | breaks | continues | returns => exact hid

theorem Tree.sight_of_declares {tree : Tree} (hdeclares : tree.declares = []) (locals : List Nat) :
    tree.sight locals = fun _ => locals := by
  funext exit
  cases exit with
  | normal =>
    show tree.declares ++ locals = locals
    rw [hdeclares, nil_append]
  | breaks | continues | returns => rfl

section

variable {κ : Type} {intervals : List Interval} {loops : List LoopSpan} {place : Nat → κ} {level higher : Nat}
  {locals fewer : List Nat} {store : κ → Option Nat}

theorem Intact.raise (hintact : Intact intervals place level locals store) (hlevel : level ≤ higher)
    (hlocals : ∀ id ∈ fewer, id ∈ locals) : Intact intervals place higher fewer store := by
  intro interval hinterval hvar hstop
  exact hintact interval hinterval (hlocals _ hvar) (Nat.le_trans hlevel hstop)

theorem Begun.raise (hbegun : Begun intervals level locals) (hlevel : level ≤ higher) : Begun intervals higher locals := by
  intro interval hinterval hvar
  exact Nat.le_trans (hbegun interval hinterval hvar) hlevel

variable {tree : Tree} {walk : Walk} [DecidableEq κ]

variable {var : Nat}

theorem Interval.Covers.mem_vars {index : Nat} (hcovers : Covers intervals var index) :
    var ∈ intervals.map (·.var) := by
  obtain ⟨interval, hinterval, rfl, -, -⟩ := hcovers
  exact mem_map_of_mem hinterval

/-! ### Courses that keep the level, and courses that raise it -/

/-- What is intact stays intact on every path. -/
def Steady (intervals : List Interval) (place : Nat → κ) (level : Nat) (locals : List Nat) (course : Course) : Prop :=
  Meets place (intervals.map (·.var)) (Intact intervals place level locals) course
    fun _ => Intact intervals place level locals

namespace Steady

variable {first second : Course}

theorem nothing : Steady intervals place level locals (Course.does []) := Meets.nothing fun _ hintact => hintact

theorem followedBy (hfirst : Steady intervals place level locals first) (hsecond : Steady intervals place level locals second) :
    Steady intervals place level locals (first.followedBy second) :=
  Meets.followedBy hfirst hsecond fun _ _ _ hintact => hintact

theorem either (hfirst : Steady intervals place level locals first) (hsecond : Steady intervals place level locals second) :
    Steady intervals place level locals (first.either second) :=
  Meets.either hfirst hsecond

variable {symbol : Symbol} {index : Nat}

theorem reads (hin : symbol.In locals) (hindex : level ≤ index)
    (hcovers : ∀ id ∈ symbol.local?, Covers intervals id index) :
    Steady intervals place level locals (Course.does symbol.reads) := by
  unfold Symbol.reads
  cases hlocal : symbol.local? with
  | none => exact nothing
  | some var =>
    have hvar : var ∈ symbol.local? := hlocal
    refine Meets.reads (hcovers var hvar).mem_vars ?_ fun _ hintact => hintact
    intro store hintact
    obtain ⟨interval, hinterval, rfl, -, hstop⟩ := hcovers var hvar
    exact hintact interval hinterval (hin _ hvar) (Nat.le_trans hindex hstop)

end Steady

theorem steady_courses {trees : List Tree} (htrees : ∀ tree ∈ trees, Steady intervals place level locals tree.course) :
    Steady intervals place level locals (courseAll trees) ∧ Steady intervals place level locals (courseBackward trees) := by
  induction trees with
  | nil => exact ⟨.nothing, .nothing⟩
  | cons tree rest ih =>
    obtain ⟨htree, hrest⟩ := forall_mem_cons.1 htrees
    exact ⟨htree.followedBy (ih hrest).1, (ih hrest).2.followedBy htree⟩

/-- Behind the walk of a statement, what is in sight is intact at the last number taken. -/
def Rises (intervals : List Interval) (place : Nat → κ) (level : Nat) (locals : List Nat) (course : Course) (next : Nat)
    (sight : Exit → List Nat) : Prop :=
  Meets place (intervals.map (·.var)) (Intact intervals place level locals) course
    fun exit => Intact intervals place (next - 1) (sight exit)

variable {course : Course} {next later : Nat} {sight : Exit → List Nat}

theorem Steady.rises (hsteady : Steady intervals place level locals course) (hnext : level < next) :
    Rises intervals place level locals course next fun _ => locals := by
  refine weaken hsteady (fun _ hintact => hintact) ?_
  intro exit store hintact
  exact hintact.raise (Nat.le_sub_one_of_lt hnext) fun _ hid => hid

/-- A course may start lower, run to a later number, and forget what it declared. -/
theorem Rises.widen (hrises : Rises intervals place higher locals course next sight) (hlevel : level ≤ higher)
    (hlater : next ≤ later) (hsight : ∀ exit, ∀ id ∈ fewer, id ∈ sight exit) :
    Rises intervals place level locals course later fun _ => fewer := by
  refine weaken hrises ?_ ?_
  · intro store hintact
    exact hintact.raise hlevel fun _ hid => hid
  · intro exit store hintact
    exact hintact.raise (Nat.sub_le_sub_right hlater 1) (hsight exit)

/-- The statement raises the level, wherever it stands. -/
def Raises (intervals : List Interval) (loops : List LoopSpan) (place : Nat → κ) (tree : Tree) : Prop :=
  ∀ ⦃walk : Walk⦄ ⦃level : Nat⦄ ⦃locals : List Nat⦄, Begun intervals level locals → level < walk.next →
    Fits intervals loops (walk.visit tree) → tree.StatementIn locals →
    Rises intervals place level locals tree.course (walk.visit tree).next (tree.sight locals)

theorem rises_courseOption {tree : Option Tree} (htree : ∀ given ∈ tree.toList, Raises intervals loops place given)
    (hbegun : Begun intervals level locals) (hlevel : level < walk.next)
    (hfits : Fits intervals loops (walk.visitOption tree)) (hin : ElseIn locals tree) :
    Rises intervals place level locals (courseOption tree) (walk.visitOption tree).next fun _ => locals := by
  cases tree with
  | none => exact Steady.nothing.rises hlevel
  | some tree =>
    have hrises := forall_mem_singleton.1 htree hbegun hlevel hfits hin
    exact hrises.widen (Nat.le_refl _) (Nat.le_refl _) (tree.subset_sight locals)

/-! ### Expressions keep the level -/

section

variable (hlayout : Layout intervals loops place) (hbegun : Begun intervals level locals)

include hlayout hbegun

/-- A variable that is written at the level takes nobody's place. -/
theorem Intact.update (hcovers : Covers intervals var level) (hintact : Intact intervals place level locals store) :
    Intact intervals place level (var :: locals) (Function.update store (place var) (some var)) := by
  obtain ⟨written, hwritten, rfl, hstart, hstop⟩ := hcovers
  intro interval hinterval hvar hreaches
  by_cases hsame : interval.var = written.var
  · rw [hsame, Function.update_self]
  · have hlocal : interval.var ∈ locals := (mem_cons.1 hvar).resolve_left hsame
    have hapart : place interval.var ≠ place written.var :=
      hlayout.apart interval hinterval written hwritten hsame (Nat.le_trans (hbegun interval hinterval hlocal) hstop)
        (Nat.le_trans hstart hreaches)
    rw [Function.update_of_ne hapart]
    exact hintact interval hinterval hlocal hreaches

theorem Steady.writes {symbol : Symbol} {index : Nat} (hin : symbol.In locals)
    (hindex : level ≤ index) (hcovers : ∀ id ∈ symbol.local?, Covers intervals id index) :
    Steady intervals place level locals (Course.does symbol.writes) := by
  unfold Symbol.writes
  cases hlocal : symbol.local? with
  | none => exact nothing
  | some var =>
    have hvar : var ∈ symbol.local? := hlocal
    refine Meets.writes (hcovers var hvar).mem_vars ?_
    intro store hintact
    -- The variable is in sight, so its interval has begun, and it reaches the level.
    obtain ⟨interval, hinterval, rfl, -, hstop⟩ := hcovers var hvar
    have hlevel : Covers intervals interval.var level :=
      ⟨interval, hinterval, rfl, hbegun interval hinterval (hin _ hvar), Nat.le_trans hindex hstop⟩
    exact (hintact.update hlayout hbegun hlevel).raise (Nat.le_refl _) fun _ hid => mem_cons_of_mem _ hid

theorem steady_course (tree : Tree) (hlevel : level ≤ walk.next) (hfits : Fits intervals loops (walk.visit tree))
    (hvalue : tree.ValueIn locals) : Steady intervals place level locals tree.course := by
  induction tree using of_children generalizing walk with
  | hstep tree ih =>
    have hchildren : ∀ child ∈ tree.children, Steady intervals place level locals child.course := by
      intro child hchild
      obtain ⟨between, hbefore, hafter⟩ := exists_visit_child walk hvalue.isPlain hchild
      exact ih child hchild (Nat.le_trans hlevel hbefore.next) (hfits.of_grows hafter) (hvalue.child child hchild)
    cases tree with (simp only [children, forall_mem_cons, not_mem_nil, false_implies, implies_true, and_true] at hchildren)
    | int | float | bool | null | str | new => exact .nothing
    | array => exact (steady_courses hchildren).1
    | var => exact .reads hvalue hlevel fun _ hid => hfits.widens.covers (covers_record hid)
    | assign =>
      refine hchildren.followedBy (.writes hlayout hbegun hvalue.1 hlevel fun _ hid => ?_)
      exact hfits.widens.covers (covers_record hid)
    | binary _ op =>
      apply hchildren.1.followedBy
      by_cases hshort : op.isShortCircuit
      · rw [if_pos hshort]
        exact .either .nothing hchildren.2
      · rw [if_neg hshort]
        exact hchildren.2
    | unary | get => exact hchildren
    | ternary => exact hchildren.1.followedBy (.either hchildren.2.1 hchildren.2.2)
    | call => exact (steady_courses hchildren.2).2.followedBy hchildren.1
    | set | indexGet => exact hchildren.1.followedBy hchildren.2
    | indexSet => exact (hchildren.1.followedBy hchildren.2.1).followedBy hchildren.2.2
    | _ => contradiction

theorem steady_courseOption (tree : Option Tree) (hlevel : level ≤ walk.next) (hfits : Fits intervals loops (walk.visitOption tree))
    (hvalue : ∀ given ∈ tree, given.ValueIn locals) : Steady intervals place level locals (courseOption tree) := by
  cases tree with
  | none => exact .nothing
  | some tree => exact steady_course hlayout hbegun tree hlevel hfits (hvalue tree rfl)

/-! ### Statements raise the level -/

variable {note : Note} (hlevel : level < walk.next)

include hlevel

omit [DecidableEq κ] in
theorem begun_sight (hfits : Fits intervals loops (walk.visit tree)) :
    Begun intervals ((walk.visit tree).next - 1) (tree.declares ++ locals) := by
  have hlast : walk.next ≤ (walk.visit tree).next - 1 := Nat.le_sub_one_of_lt (lt_next_visit walk tree)
  intro interval hinterval hvar
  rcases mem_append.1 hvar with hvar | hvar
  · cases tree with
    | varDecl note name symbol managed initial =>
      have hlocal : interval.var ∈ symbol.local? := Option.mem_toList.1 hvar
      obtain ⟨found, hfound, hsame, hstart, -⟩ :=
        (hfits.of_grows (grows_visitOption _ initial)).widens.covers (covers_record hlocal)
      obtain rfl := hlayout.unique found hfound interval hinterval hsame
      exact Nat.le_trans hstart hlast
    | _ => exact absurd hvar not_mem_nil
  · exact Nat.le_trans (hbegun interval hinterval hvar) (Nat.le_trans (Nat.le_of_lt hlevel) hlast)

theorem rises_of_valueIn (hfits : Fits intervals loops (walk.visit tree)) (hvalue : tree.ValueIn locals) :
    Rises intervals place level locals tree.course (walk.visit tree).next (tree.sight locals) := by
  have hsteady := steady_course hlayout hbegun tree (Nat.le_of_lt hlevel) hfits hvalue
  rw [sight_of_declares hvalue.declares]
  exact hsteady.rises (Nat.lt_trans hlevel (lt_next_visit walk tree))

theorem rises_varDecl {name : String} {symbol : Symbol} {managed : Bool} {initial : Option Tree}
    (hfits : Fits intervals loops (walk.visit (.varDecl note name symbol managed initial)))
    (hvalue : ∀ given ∈ initial, given.ValueIn locals) :
    Rises intervals place level locals (varDecl note name symbol managed initial).course
      (walk.visit (.varDecl note name symbol managed initial)).next
      ((varDecl note name symbol managed initial).sight locals) := by
  have hbegun' : Begun intervals walk.next locals := hbegun.raise (Nat.le_of_lt hlevel)
  have hrecorded : walk.next ≤ (walk.step.record symbol walk.next).next :=
    Nat.le_trans (Nat.le_succ _) (grows_record walk.step symbol walk.next).next
  have hinitial : Steady intervals place walk.next locals (courseOption initial) :=
    steady_courseOption hlayout hbegun' initial hrecorded hfits hvalue
  have hlast : walk.next ≤ (walk.visit (.varDecl note name symbol managed initial)).next - 1 :=
    Nat.le_sub_one_of_lt (lt_next_visit walk _)
  refine weaken (followedBy hinitial ?_ ?_)
    (fun store hintact => hintact.raise (Nat.le_of_lt hlevel) fun _ hid => hid) fun _ _ hintact => hintact
  · show Meets _ _ _ (Course.does symbol.writes) _
    unfold Symbol.writes
    cases hlocal : symbol.local? with
    | none =>
      refine nothing fun store hintact => hintact.raise hlast ?_
      intro id hid
      have hdeclares : id ∈ symbol.local?.toList ++ locals := hid
      rw [hlocal] at hdeclares
      exact hdeclares
    | some var =>
      have hcovers : Covers intervals var walk.next :=
        (hfits.of_grows (grows_visitOption _ initial)).widens.covers (covers_record hlocal)
      refine writes hcovers.mem_vars ?_
      intro store hintact
      refine (hintact.update hlayout hbegun' hcovers).raise hlast ?_
      intro id hid
      have hdeclares : id ∈ symbol.local?.toList ++ locals := hid
      rw [hlocal] at hdeclares
      exact hdeclares
  · intro exit store hexit hintact
    cases exit with
    | normal => contradiction
    | breaks | continues | returns => exact hintact.raise hlast fun _ hid => hid

/-- A loop comes back to its beginning with what was intact there. -/
theorem rises_whileLoop {condition body : Tree} {step : Option Tree}
    (hfits : Fits intervals loops (walk.visit (.whileLoop note condition body step)))
    (hcondition : condition.ValueIn locals) (hstep : ∀ given ∈ step, given.ValueIn locals)
    (hbody : Rises intervals place walk.next locals body.course ((walk.step.visit condition).visit body).next
      (body.sight locals)) : Rises intervals place level locals (whileLoop note condition body step).course
      (walk.visit (.whileLoop note condition body step)).next fun _ => locals := by
  have hbegun' : Begun intervals walk.next locals := hbegun.raise (Nat.le_of_lt hlevel)
  have hlast : walk.next ≤ (walk.visit (.whileLoop note condition body step)).next - 1 :=
    Nat.le_sub_one_of_lt (lt_next_visit walk _)
  have hended : Fits intervals loops (((walk.step.visit condition).visit body).visitOption step) :=
    hfits.of_grows (grows_leaveLoop _ walk.next)
  have htested := hended.of_grows ((grows_visit _ body).trans (grows_visitOption _ step))
  have hspan : ⟨walk.next, (((walk.step.visit condition).visit body).visitOption step).next - 1⟩ ∈ loops :=
    hfits.loops _ (mem_append_right _ mem_cons_self)
  have hfirst : Steady intervals place walk.next locals condition.course :=
    steady_course hlayout hbegun' condition (Nat.le_succ _) htested hcondition
  have hnext : walk.next ≤ ((walk.step.visit condition).visit body).next :=
    (((grows_step walk).trans (grows_visit _ condition)).trans (grows_visit _ body)).next
  have hstepped : Steady intervals place walk.next locals (courseOption step) :=
    steady_courseOption hlayout hbegun' step hnext hended hstep
  -- The loop is content with an interval that reaches it from before, so it reaches the end of the body as well.
  have hback : ∀ exit store, Intact intervals place (((walk.step.visit condition).visit body).next - 1)
      (body.sight locals exit) store → Intact intervals place walk.next locals store := by
    intro exit store hintact interval hinterval hvar hreaches
    have hbefore : interval.start < walk.next := Nat.lt_of_le_of_lt (hbegun interval hinterval hvar) hlevel
    have hcontent := hlayout.content interval hinterval _ hspan hbefore hreaches
    refine hintact interval hinterval (body.subset_sight locals exit _ hvar) (Nat.le_trans ?_ hcontent)
    exact Nat.sub_le_sub_right (grows_visitOption _ step).next 1
  have hraise : ∀ store, Intact intervals place walk.next locals store →
      Intact intervals place ((walk.visit (.whileLoop note condition body step)).next - 1) locals store :=
    fun _ hintact => hintact.raise hlast fun _ hid => hid
  refine weaken (loop hfirst hbody hstepped (fun exit store _ => hback exit store) hraise ?_ ?_)
    (fun store hintact => hintact.raise (Nat.le_of_lt hlevel) fun _ hid => hid) fun _ _ hintact => hintact
  · exact fun store hintact => hraise store (hback _ store hintact)
  · exact fun store hintact => hraise store (hback _ store hintact)

theorem rises_courseAll {trees : List Tree} (htrees : ∀ tree ∈ trees, Raises intervals loops place tree)
    (hfits : Fits intervals loops (walk.visitAll trees)) (hin : BodyIn locals trees) :
    Rises intervals place level locals (courseAll trees) (walk.visitAll trees).next fun _ => locals := by
  induction trees generalizing walk level locals with
  | nil => exact Steady.nothing.rises hlevel
  | cons tree rest ih =>
    obtain ⟨htree, hrest⟩ := forall_mem_cons.1 htrees
    have hfirst := hfits.of_grows (grows_visitAll _ rest)
    have hlast : (walk.visit tree).next - 1 < (walk.visit tree).next :=
      Nat.sub_lt (Nat.lt_of_le_of_lt (Nat.zero_le _) (lt_next_visit walk tree)) Nat.one_pos
    have hrises := ih (begun_sight hlayout hbegun hlevel hfirst) hlast hrest hfits hin.2
    refine followedBy (htree hbegun hlevel hfirst hin.1) (hrises.widen (Nat.le_refl _) (Nat.le_refl _) ?_) ?_
    · exact fun _ _ hid => mem_append_right _ hid
    · intro exit store _ hintact
      exact hintact.raise (Nat.sub_le_sub_right (grows_visitAll _ rest).next 1) (tree.subset_sight locals exit)

omit hbegun hlevel in
theorem rises_course (tree : Tree) : Raises intervals loops place tree := by
  induction tree using of_children with
  | hstep tree ih =>
    intro walk level locals hbegun hlevel hfits hin
    cases tree with
    | varDecl => exact rises_varDecl hlayout hbegun hlevel hfits hin
    | block =>
      rw [sight_of_declares rfl]
      exact rises_courseAll hlayout hbegun (Nat.lt_succ_of_lt hlevel) ih hfits hin
    | ifElse _ condition positive negative =>
      rw [sight_of_declares rfl]
      obtain ⟨-, ih⟩ := forall_mem_cons.1 ih
      obtain ⟨hpositive, hnegative⟩ := forall_mem_cons.1 ih
      have hfirst := hfits.of_grows (grows_visitOption _ negative)
      have htested : level < (walk.step.visit condition).next :=
        Nat.lt_of_lt_of_le (Nat.lt_succ_of_lt hlevel) (grows_visit walk.step condition).next
      have hchosen := Nat.lt_of_lt_of_le htested (grows_visit _ positive).next
      have hcondition := steady_course hlayout hbegun condition (Nat.le_succ_of_le (Nat.le_of_lt hlevel))
        (hfirst.of_grows (grows_visit _ positive)) hin.1
      have hthen := hpositive hbegun htested hfirst hin.2.1
      refine followedBy hcondition (either ?_ (rises_courseOption hnegative hbegun hchosen hfits hin.2.2)) ?_
      · exact hthen.widen (Nat.le_refl _) (grows_visitOption _ negative).next (positive.subset_sight locals)
      · intro exit store _ hintact
        have hlast := Nat.lt_of_lt_of_le hchosen (grows_visitOption _ negative).next
        exact hintact.raise (Nat.le_sub_one_of_lt hlast) fun _ hid => hid
    | whileLoop _ condition body step =>
      rw [sight_of_declares rfl]
      have hbody := hfits.of_grows ((grows_visitOption _ step).trans (grows_leaveLoop _ walk.next))
      have htested : walk.next < (walk.step.visit condition).next :=
        Nat.lt_of_lt_of_le (Nat.lt_succ_self _) (grows_visit walk.step condition).next
      have hraises : Raises intervals loops place body := ih body (by simp [children])
      exact rises_whileLoop hlayout hbegun hlevel hfits hin.1 hin.2.2
        (hraises (hbegun.raise (Nat.le_of_lt hlevel)) htested hbody hin.2.1)
    | ret note value =>
      rw [sight_of_declares rfl]
      have hvalue := steady_courseOption hlayout hbegun value (Nat.le_succ_of_le (Nat.le_of_lt hlevel)) hfits hin
      have hlast : level < (walk.visit (.ret note value)).next := Nat.lt_trans hlevel (lt_next_visit walk _)
      exact Steady.rises (hvalue.followedBy (leaves fun _ hintact => hintact)) hlast
    | breakLoop | continueLoop =>
      rw [sight_of_declares rfl]
      exact Steady.rises (leaves fun _ hintact => hintact) (Nat.lt_succ_of_lt hlevel)
    | _ => exact rises_of_valueIn hlayout hbegun hlevel hfits hin

end

end

/-! ### Functions -/

/-- The paths through a function: the parameters are copied to their places, one after the other, and then the body runs. -/
def functionCourse (parameters : List Tree) (body : Tree) : Course :=
  (parameterLocals parameters).foldr (fun var rest => (Course.does [.write var]).followedBy rest) body.course

section

variable {κ : Type} [DecidableEq κ] {intervals : List Interval} {loops : List LoopSpan} {place : Nat → κ}

/-- All parameters are in place at number zero, so none takes the place of another. -/
theorem meets_parameters (hlayout : Layout intervals loops place) {body : Course} (vars copied : List Nat)
    (hcovers : ∀ var ∈ vars, Covers intervals var 0) (hbegun : Begun intervals 0 copied)
    (hbody : Begun intervals 0 (vars.reverse ++ copied) →
      Meets place (intervals.map (·.var)) (Intact intervals place 0 (vars.reverse ++ copied)) body fun _ _ => True) :
    Meets place (intervals.map (·.var)) (Intact intervals place 0 copied)
      (vars.foldr (fun var rest => (Course.does [.write var]).followedBy rest) body) fun _ _ => True := by
  induction vars generalizing copied with
  | nil => exact hbody hbegun
  | cons var rest ih =>
    have hvar := hcovers var mem_cons_self
    have hbegun' : Begun intervals 0 (var :: copied) := by
      intro interval hinterval hmem
      rcases mem_cons.1 hmem with hsame | hmem
      · obtain ⟨found, hfound, hname, hstart, -⟩ := hvar
        obtain rfl := hlayout.unique found hfound interval hinterval (hname.trans hsame.symm)
        exact hstart
      · exact hbegun interval hinterval hmem
    rw [reverse_cons, append_assoc] at hbody
    have hwrite : Meets place (intervals.map (·.var)) (Intact intervals place 0 copied) (Course.does [.write var])
        fun _ => Intact intervals place 0 (var :: copied) :=
      writes hvar.mem_vars fun _ hintact => hintact.update hlayout hbegun hvar
    exact hwrite.followedBy
      (ih (var :: copied) (fun other hother => hcovers other (mem_cons_of_mem _ hother)) hbegun' hbody)
      fun _ _ _ _ => trivial

end

namespace Walk

theorem grows_recordParameter (walk : Walk) (parameter : Tree) : Grows walk (walk.recordParameter parameter) := by
  cases parameter with
  | var _ _ symbol => exact grows_record walk symbol 0
  | _ => exact .refl walk

theorem grows_recordParameters (walk : Walk) (parameters : List Tree) :
    Grows walk (parameters.foldl recordParameter walk) := by
  induction parameters generalizing walk with
  | nil => exact .refl walk
  | cons parameter rest ih => exact (grows_recordParameter walk parameter).trans (ih _)

theorem covers_recordParameters (walk : Walk) {parameters : List Tree} {var : Nat} (hvar : var ∈ parameterLocals parameters) :
    Covers (parameters.foldl recordParameter walk).intervals var 0 := by
  induction parameters generalizing walk with
  | nil => contradiction
  | cons parameter rest ih =>
    rcases mem_append.1 hvar with hvar | hvar
    · apply (grows_recordParameters _ rest).widens.covers
      cases parameter with
      | var _ _ symbol => exact covers_record (Option.mem_toList.1 hvar)
      | _ => exact absurd hvar not_mem_nil
    · exact ih _ hvar

end Walk

/-! ### Allocation -/

section

variable (parameters : List Tree) (body : Tree)

/-- The walk that numbers a function. -/
def functionWalk : Walk := (enter parameters).visit body

theorem mem_liveIntervals {interval : Interval} : interval ∈ liveIntervals parameters body ↔
    ∃ met ∈ (functionWalk parameters body).intervals, met.stretch (functionWalk parameters body).loops = interval := by
  refine mem_sort.trans ?_
  rw [settle_eq]
  exact mem_map

theorem nodup_functionWalk : ((functionWalk parameters body).intervals.map (·.var)).Nodup :=
  ((grows_recordParameters {} parameters).trans (grows_visit _ body)).nodup nodup_nil

theorem nodup_liveIntervals : ((liveIntervals parameters body).map (·.var)).Nodup := by
  apply nodup_vars_sort
  rw [settle_eq, map_map]
  exact nodup_functionWalk parameters body

theorem fits_liveIntervals :
    Fits (liveIntervals parameters body) (functionWalk parameters body).loops (functionWalk parameters body) := by
  refine ⟨?_, fun _ hspan => hspan⟩
  intro interval hinterval
  refine ⟨interval.stretch _, (mem_liveIntervals parameters body).2 ⟨interval, hinterval, rfl⟩, rfl, Nat.le_refl _, ?_⟩
  exact le_reach _ _ _

theorem layout_linearScan : Layout (liveIntervals parameters body) (functionWalk parameters body).loops
    (linearScan (liveIntervals parameters body)).location? := by
  have hnodup := nodup_liveIntervals parameters body
  refine ⟨?_, ?_, ?_⟩
  · intro a ha b hb hvar
    exact inj_on_of_nodup_map hnodup ha hb hvar
  · intro a ha b hb hvar hab hba
    exact location?_ne_of_overlap hnodup ha hb hvar hab hba
  · intro interval hinterval span hspan hbefore hreaches
    obtain ⟨met, -, rfl⟩ := (mem_liveIntervals parameters body).1 hinterval
    exact le_reach_of_mem hspan hbefore hreaches

end

/-- A function whose locals are all in sight where they are used reads what it wrote. -/
theorem sound_functionCourse {parameters : List Tree} {body : Tree} (hfunction : FunctionIn parameters body)
    {trace : List Access} {exit : Exit} (hcourse : functionCourse parameters body trace exit) :
    Sound (linearScan (liveIntervals parameters body)).location? ((liveIntervals parameters body).map (·.var))
      (fun _ => none) trace := by
  obtain ⟨locals, hbody, hlocals⟩ := hfunction
  have hlayout := layout_linearScan parameters body
  have hfits := fits_liveIntervals parameters body
  have hcovers : ∀ var ∈ parameterLocals parameters, Covers (liveIntervals parameters body) var 0 := by
    intro var hvar
    exact hfits.widens.covers ((grows_visit _ body).widens.covers (covers_recordParameters {} hvar))
  have hentered : 0 < (enter parameters).next := (grows_recordParameters {} parameters).next
  have hbegun : Begun (liveIntervals parameters body) 0 [] := fun _ _ hvar => absurd hvar not_mem_nil
  have hmeets := meets_parameters hlayout (parameterLocals parameters) [] hcovers hbegun fun hbegun => by
    have hsight : ∀ id ∈ locals, id ∈ (parameterLocals parameters).reverse ++ [] := by
      intro id hid
      rw [append_nil]
      exact mem_reverse.2 (hlocals id hid)
    have hrises := rises_course hlayout body (fun interval hinterval hvar => hbegun interval hinterval (hsight _ hvar))
      hentered hfits hbody
    exact hrises.weaken (fun store hintact => hintact.raise (Nat.le_refl _) hsight) fun _ _ _ => trivial
  have hnothing : Intact (liveIntervals parameters body) (linearScan (liveIntervals parameters body)).location? 0 []
      fun _ => none := fun _ _ hvar => absurd hvar not_mem_nil
  exact (hmeets _ trace exit hnothing hcourse).1

/-- Sharing is safe. On every path through a function of a text without reports, each local that is touched has a location.
Every read comes behind a write of its variable, and no other variable has been written to the same location since. So
whatever the values are, a store with one word for each location gives what a store with one word for each variable gives. -/
theorem sharing_safe {source : String} (hsilent : (parse source).errors = []) {note : Note} {name sourceName : String}
    {parameters : List Tree} {body : Tree}
    (hfunction : Tree.funcDecl note name sourceName parameters body ∈ functionDeclarations (parse source).program)
    {trace : List Access} {exit : Exit} (hcourse : functionCourse parameters body trace exit) :
    (∀ access ∈ trace, ((linearScan (liveIntervals parameters body)).location? access.var).isSome) ∧
      Undisturbed (linearScan (liveIntervals parameters body)).location? trace ∧
      ∀ (α : Type) (values : Nat → α),
        readings (linearScan (liveIntervals parameters body)).location? (fun _ => none) values trace =
          readings id (fun _ => none) values trace := by
  obtain ⟨hknown, hfaithful⟩ := sound_functionCourse (functionIn_of_parse hsilent hfunction) hcourse
  refine ⟨?_, hfaithful.undisturbed, ?_⟩
  · intro access haccess
    obtain ⟨interval, hinterval, hvar⟩ := List.mem_map.1 (hknown access haccess)
    obtain ⟨location, -, hlocation⟩ := exists_location? (nodup_liveIntervals parameters body) hinterval
    rw [← hvar, hlocation]
    rfl
  · intro α values
    apply hfaithful.readings_eq
    intro var hheld
    contradiction

section

private def roundSource : String := "func f(a) \x7b while (a) \x7b var b; \x7d var c; c; return a; \x7d"

private def roundLoop : Tree := .whileLoop ⟨4, 1⟩ (.var ⟨1, 1⟩ "a" (.localVar 1))
  (.block ⟨3, 1⟩ [.varDecl ⟨2, 1⟩ "b" (.localVar 2) false none]) none

private def roundParameters : List Tree := [.var ⟨0, 1⟩ "a" (.localVar 1)]

private def roundBody : Tree := .block ⟨9, 1⟩ [roundLoop, .varDecl ⟨5, 1⟩ "c" (.localVar 3) false none,
  .var ⟨6, 1⟩ "c" (.localVar 3), .ret ⟨8, 1⟩ (some (.var ⟨7, 1⟩ "a" (.localVar 1)))]

set_option maxRecDepth 4000 in
/-- Once around a loop and behind it. The variable of the loop and the one behind it share a register. -/
theorem sharing_safe_round :
    let trace : List Access := [.write 1, .read 1, .write 2, .read 1, .write 3, .read 3, .read 1]
    let allocation := linearScan (liveIntervals roundParameters roundBody)
    (parse roundSource).errors = [] ∧
      Tree.funcDecl ⟨10, 1⟩ "f" "f" roundParameters roundBody ∈ functionDeclarations (parse roundSource).program ∧
      functionCourse roundParameters roundBody trace .returns ∧ allocation.location? 2 = allocation.location? 3 ∧
      Undisturbed allocation.location? trace ∧
      readings allocation.location? (fun _ => none) id trace = readings id (fun _ => none) id trace := by
  have hsilent : (parse roundSource).errors = [] := by decide +kernel
  have hprogram : (parse roundSource).program = [.funcDecl ⟨10, 1⟩ "f" "f" roundParameters roundBody] := by
    simp only [parse, tokens_eq]
    cbv
  have hfunction : Tree.funcDecl ⟨10, 1⟩ "f" "f" roundParameters roundBody ∈
      functionDeclarations (parse roundSource).program := by
    rw [hprogram]
    exact List.mem_cons_self
  have hshared : (linearScan (liveIntervals roundParameters roundBody)).location? 2 =
      (linearScan (liveIntervals roundParameters roundBody)).location? 3 := by cbv
  have hround : roundLoop.course [.read 1, .write 2, .read 1] .normal := by
    have hdeclared : Tree.course (.block ⟨3, 1⟩ [.varDecl ⟨2, 1⟩ "b" (.localVar 2) false none]) [.write 2] .normal :=
      .inl ⟨_, [], .inl ⟨[], [.write 2], ⟨rfl, rfl⟩, ⟨rfl, rfl⟩, rfl⟩, ⟨rfl, rfl⟩, rfl⟩
    exact @Course.Loop.again _ _ _ [.read 1] _ [] [.read 1] _ _ ⟨rfl, rfl⟩ hdeclared (.inl rfl) ⟨rfl, rfl⟩
      (.done ⟨rfl, rfl⟩)
  have hdeclared : Tree.course (.varDecl ⟨5, 1⟩ "c" (.localVar 3) false none) [.write 3] .normal :=
    .inl ⟨[], [.write 3], ⟨rfl, rfl⟩, ⟨rfl, rfl⟩, rfl⟩
  have hreturned : Tree.course (.ret ⟨8, 1⟩ (some (.var ⟨7, 1⟩ "a" (.localVar 1)))) [.read 1] .returns :=
    .inl ⟨[.read 1], [], ⟨rfl, rfl⟩, ⟨rfl, rfl⟩, rfl⟩
  have hbody : roundBody.course [.read 1, .write 2, .read 1, .write 3, .read 3, .read 1] .returns :=
    .inl ⟨_, _, hround, .inl ⟨_, _, hdeclared, .inl ⟨[.read 3], _, ⟨rfl, rfl⟩, .inr ⟨hreturned, Exit.noConfusion⟩, rfl⟩,
      rfl⟩, rfl⟩
  have hcourse : functionCourse roundParameters roundBody
      [.write 1, .read 1, .write 2, .read 1, .write 3, .read 3, .read 1] .returns :=
    .inl ⟨[.write 1], _, ⟨rfl, rfl⟩, hbody, rfl⟩
  obtain ⟨-, hundisturbed, hreadings⟩ := sharing_safe hsilent hfunction hcourse
  exact ⟨hsilent, hfunction, hcourse, hshared, hundisturbed, hreadings Nat id⟩

end

end NanScript
