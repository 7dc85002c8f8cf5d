import Mathlib.Logic.Function.Basic
import NanScript.Tree

/-!
# What a body does to its locals

A course is the set of all paths through a tree, each with the reads and writes of locals that happen along it, in the order
in which the code does them, and the way it leaves the tree. Nothing is known of values here, so every condition can be
decided either way and every loop can run any number of times.

A store has one word for each key. If the keys are the variables themselves, every read gives what was written last under
its name; `Faithful` says that a coarser choice of keys makes no difference.
-/

namespace NanScript

open Function

inductive Access where
  | read (var : Nat)
  | write (var : Nat)
  deriving DecidableEq, Repr

def Access.var : Access → Nat
  | read var | write var => var

/-- How a path leaves a tree. -/
inductive Exit where
  | normal
  | breaks
  | continues
  | returns
  deriving DecidableEq, Repr

/-- A set of paths. -/
abbrev Course := List Access → Exit → Prop

namespace Course

/-- The accesses are made, and nothing else happens. -/
def does (accesses : List Access) : Course := fun trace exit => trace = accesses ∧ exit = .normal

def leaves (how : Exit) : Course := fun trace exit => trace = [] ∧ exit = how

/-- One after the other, unless the first is left early. -/
def followedBy (first second : Course) : Course := fun trace exit =>
  (∃ front back, first front .normal ∧ second back exit ∧ trace = front ++ back) ∨ (first trace exit ∧ exit ≠ .normal)

def either (first second : Course) : Course := fun trace exit => first trace exit ∨ second trace exit

/-- The condition is tested before the body, and the step stands between the body and the next test. -/
inductive Loop (condition body step : Course) : Course
  | done {trace : List Access} : condition trace .normal → Loop condition body step trace .normal
  | broken {front back : List Access} : condition front .normal → body back .breaks →
    Loop condition body step (front ++ back) .normal
  | returned {front back : List Access} : condition front .normal → body back .returns →
    Loop condition body step (front ++ back) .returns
  | again {front middle back rest : List Access} {exit last : Exit} : condition front .normal → body middle exit →
    exit = .normal ∨ exit = .continues → step back .normal → Loop condition body step rest last →
    Loop condition body step (front ++ middle ++ back ++ rest) last

end Course

open Course

/-- A use of a name touches a local only if the name means one. -/
def Symbol.reads (symbol : Symbol) : List Access := symbol.local?.toList.map .read

def Symbol.writes (symbol : Symbol) : List Access := symbol.local?.toList.map .write

namespace Tree

mutual

/-- The paths through a tree. The arguments of a call come from the last to the first, and its callee behind them; a
variable is written when its value is there. -/
def course : Tree → Course
  | int .. | float .. | bool .. | null _ | str .. | new .. | funcDecl .. | classDecl .. => does []
  | array _ items => courseAll items
  | var _ _ symbol => does symbol.reads
  | assign _ _ symbol value => value.course.followedBy (does symbol.writes)
  | binary _ op left right =>
    left.course.followedBy (if op.isShortCircuit then (does []).either right.course else right.course)
  | unary _ _ operand => operand.course
  | ternary _ condition positive negative => condition.course.followedBy (positive.course.either negative.course)
  | call _ callee arguments => (courseBackward arguments).followedBy callee.course
  | get _ object _ => object.course
  | set _ object _ value => object.course.followedBy value.course
  | indexGet _ object index => object.course.followedBy index.course
  | indexSet _ object index value => (object.course.followedBy index.course).followedBy value.course
  | varDecl _ _ symbol _ initial => (courseOption initial).followedBy (does symbol.writes)
  | block _ statements => courseAll statements
  | ifElse _ condition positive negative =>
    condition.course.followedBy (positive.course.either (courseOption negative))
  | whileLoop _ condition body step => Loop condition.course body.course (courseOption step)
  | ret _ value => (courseOption value).followedBy (leaves .returns)
  | breakLoop _ => leaves .breaks
  | continueLoop _ => leaves .continues

def courseAll : List Tree → Course
  | [] => does []
  | tree :: rest => tree.course.followedBy (courseAll rest)

def courseBackward : List Tree → Course
  | [] => does []
  | tree :: rest => (courseBackward rest).followedBy tree.course

def courseOption : Option Tree → Course
  | none => does []
  | some tree => tree.course

end

end Tree

/-! ### Stores -/

section

variable {κ α : Type} [DecidableEq κ]

/-- What the reads of a trace give, one after the other, if the writes store the given values, one after the other. -/
def readings (place : Nat → κ) (store : κ → Option α) (values : Nat → α) : List Access → List (Option α)
  | [] => []
  | .read var :: rest => store (place var) :: readings place store values rest
  | .write var :: rest =>
    readings place (update store (place var) (some (values 0))) (fun position => values (position + 1)) rest

/-- Every read comes behind a write of its variable, and since the latest one no other variable has been written to the
same place. -/
def Undisturbed (place : Nat → κ) (trace : List Access) : Prop :=
  ∀ before var after, trace = before ++ .read var :: after →
    ∃ front back, before = front ++ .write var :: back ∧ .write var ∉ back ∧
      ∀ other, .write other ∈ back → place other ≠ place var

/-- Which variable was last written to each place. -/
def holder (place : Nat → κ) (store : κ → Option Nat) : List Access → κ → Option Nat
  | [] => store
  | .read _ :: rest => holder place store rest
  | .write var :: rest => holder place (update store (place var) (some var)) rest

/-- At every read, the variable is the one that was last written to its place. -/
def Faithful (place : Nat → κ) (store : κ → Option Nat) : List Access → Prop
  | [] => True
  | .read var :: rest => store (place var) = some var ∧ Faithful place store rest
  | .write var :: rest => Faithful place (update store (place var) (some var)) rest

variable {place : Nat → κ}

theorem holder_append (store : κ → Option Nat) (front back : List Access) :
    holder place store (front ++ back) = holder place (holder place store front) back := by
  induction front generalizing store with
  | nil => rfl
  | cons access rest ih =>
    cases access with
    | read var => exact ih store
    | write var => exact ih _

theorem faithful_append {store : κ → Option Nat} {front back : List Access} :
    Faithful place store (front ++ back) ↔ Faithful place store front ∧ Faithful place (holder place store front) back := by
  induction front generalizing store with
  | nil => simp [Faithful, holder]
  | cons access rest ih =>
    cases access with
    | read var => simp only [List.cons_append, Faithful, holder, ih, and_assoc]
    | write var => exact ih

/-- A place is untouched, or its last write can be pointed out. -/
theorem holder_cases (store : κ → Option Nat) (trace : List Access) (key : κ) :
    ((∀ other, .write other ∈ trace → place other ≠ key) ∧ holder place store trace key = store key) ∨
      ∃ front var back, trace = front ++ .write var :: back ∧ place var = key ∧
        (∀ other, .write other ∈ back → place other ≠ key) ∧ holder place store trace key = some var := by
  induction trace generalizing store with
  | nil =>
    left
    exact ⟨by simp, rfl⟩
  | cons access rest ih =>
    cases access with
    | read seen =>
      rcases ih store with ⟨huntouched, hholder⟩ | ⟨front, var, back, hrest, hplace, hback, hholder⟩
      · left
        exact ⟨by simpa using huntouched, hholder⟩
      · right
        exact ⟨.read seen :: front, var, back, by rw [hrest, List.cons_append], hplace, hback, hholder⟩
    | write written =>
      rcases ih (update store (place written) (some written)) with ⟨huntouched, hholder⟩ | ⟨front, var, back, hrest, hplace, hback, hholder⟩
      · by_cases hsame : place written = key
        · right
          refine ⟨[], written, rest, rfl, hsame, huntouched, ?_⟩
          change holder place (update store (place written) (some written)) rest key = some written
          rw [hholder, hsame, update_self]
        · left
          constructor
          · intro other hother
            rcases List.mem_cons.1 hother with hother | hother
            · obtain rfl := Access.write.inj hother
              exact hsame
            · exact huntouched other hother
          · change holder place (update store (place written) (some written)) rest key = store key
            rw [hholder, update_of_ne (Ne.symm hsame)]
      · right
        exact ⟨.write written :: front, var, back, by rw [hrest, List.cons_append], hplace, hback, hholder⟩

theorem Faithful.undisturbed {trace : List Access} (hfaithful : Faithful place (fun _ => none) trace) :
    Undisturbed place trace := by
  intro before var after htrace
  subst htrace
  obtain ⟨-, hread, -⟩ := faithful_append.1 hfaithful
  rcases holder_cases (fun _ => none) before (place var) with ⟨-, hholder⟩ | ⟨front, last, back, hbefore, -, hback, hholder⟩
  · rw [hholder] at hread
    contradiction
  · rw [hholder] at hread
    obtain rfl := Option.some.inj hread
    exact ⟨front, back, hbefore, fun hwrite => hback last hwrite rfl, hback⟩

/-- Two stores, by place and by variable, agree on every variable that holds its place. -/
theorem Faithful.readings_eq {trace : List Access} {held : κ → Option Nat} (hfaithful : Faithful place held trace)
    {byPlace : κ → Option α} {byVar : Nat → Option α}
    (hagree : ∀ var, held (place var) = some var → byPlace (place var) = byVar var) (values : Nat → α) :
    readings place byPlace values trace = readings id byVar values trace := by
  induction trace generalizing held byPlace byVar values with
  | nil => rfl
  | cons access rest ih =>
    cases access with
    | read var =>
      obtain ⟨hread, hrest⟩ := hfaithful
      change byPlace (place var) :: _ = byVar var :: _
      rw [hagree var hread, ih hrest hagree]
    | write var =>
      apply ih hfaithful
      intro other hother
      by_cases hsame : place other = place var
      · rw [hsame, update_self] at hother
        obtain rfl := Option.some.inj hother
        rw [update_self]
        exact (update_self var _ byVar).symm
      · rw [update_of_ne hsame] at hother ⊢
        rw [hagree other hother]
        have hother' : other ≠ var := fun hvar => hsame (hvar ▸ rfl)
        exact (update_of_ne hother' _ byVar).symm

/-! ### Courses that meet a condition -/

/-- The trace touches no variable but the known ones, and reads no place that another variable holds. -/
def Sound (place : Nat → κ) (known : List Nat) (store : κ → Option Nat) (trace : List Access) : Prop :=
  (∀ access ∈ trace, access.var ∈ known) ∧ Faithful place store trace

theorem Sound.append {known : List Nat} {store : κ → Option Nat} {front back : List Access}
    (hfront : Sound place known store front) (hback : Sound place known (holder place store front) back) :
    Sound place known store (front ++ back) := by
  refine ⟨?_, faithful_append.2 ⟨hfront.2, hback.2⟩⟩
  intro access haccess
  rcases List.mem_append.1 haccess with haccess | haccess
  · exact hfront.1 access haccess
  · exact hback.1 access haccess

/-- From a store with `pre`, every path is sound and leaves a store with `post`. -/
def Meets (place : Nat → κ) (known : List Nat) (pre : (κ → Option Nat) → Prop) (course : Course)
    (post : Exit → (κ → Option Nat) → Prop) : Prop :=
  ∀ store trace exit, pre store → course trace exit →
    Sound place known store trace ∧ post exit (holder place store trace)

namespace Meets

variable {known : List Nat} {pre pre' : (κ → Option Nat) → Prop} {post post' : Exit → (κ → Option Nat) → Prop}
  {course first second condition body step : Course}

theorem weaken (hmeets : Meets place known pre course post) (hpre : ∀ store, pre' store → pre store)
    (hpost : ∀ exit store, post exit store → post' exit store) : Meets place known pre' course post' := by
  intro store trace exit hstore hcourse
  obtain ⟨hsound, hafter⟩ := hmeets store trace exit (hpre store hstore) hcourse
  exact ⟨hsound, hpost _ _ hafter⟩

theorem leaves {how : Exit} (hpost : ∀ store, pre store → post how store) :
    Meets place known pre (Course.leaves how) post := by
  intro store trace exit hstore hcourse
  obtain ⟨rfl, rfl⟩ := hcourse
  exact ⟨⟨by simp, trivial⟩, hpost store hstore⟩

theorem nothing (hpost : ∀ store, pre store → post .normal store) : Meets place known pre (does []) post := leaves hpost

theorem reads {var : Nat} (hvar : var ∈ known) (hread : ∀ store, pre store → store (place var) = some var)
    (hpost : ∀ store, pre store → post .normal store) : Meets place known pre (does [.read var]) post := by
  intro store trace exit hstore hcourse
  obtain ⟨rfl, rfl⟩ := hcourse
  exact ⟨⟨by simpa [Access.var] using hvar, hread store hstore, trivial⟩, hpost store hstore⟩

theorem writes {var : Nat} (hvar : var ∈ known)
    (hpost : ∀ store, pre store → post .normal (update store (place var) (some var))) :
    Meets place known pre (does [.write var]) post := by
  intro store trace exit hstore hcourse
  obtain ⟨rfl, rfl⟩ := hcourse
  exact ⟨⟨by simpa [Access.var] using hvar, trivial⟩, hpost store hstore⟩

theorem followedBy (hfirst : Meets place known pre first post) (hsecond : Meets place known (post .normal) second post')
    (hearly : ∀ exit store, exit ≠ .normal → post exit store → post' exit store) :
    Meets place known pre (first.followedBy second) post' := by
  intro store trace exit hstore hcourse
  rcases hcourse with ⟨front, back, hfront, hback, rfl⟩ | ⟨hcourse, hexit⟩
  · obtain ⟨hsound, hmiddle⟩ := hfirst store front .normal hstore hfront
    obtain ⟨hsound', hafter⟩ := hsecond _ back exit hmiddle hback
    rw [holder_append]
    exact ⟨hsound.append hsound', hafter⟩
  · obtain ⟨hsound, hafter⟩ := hfirst store trace exit hstore hcourse
    exact ⟨hsound, hearly _ _ hexit hafter⟩

theorem either (hfirst : Meets place known pre first post) (hsecond : Meets place known pre second post) :
    Meets place known pre (first.either second) post := by
  intro store trace exit hstore hcourse
  rcases hcourse with hcourse | hcourse
  · exact hfirst store trace exit hstore hcourse
  · exact hsecond store trace exit hstore hcourse

/-- A loop that is entered with `pre` comes back to its condition with `pre`. -/
theorem loop {tested stepping : (κ → Option Nat) → Prop} (hcondition : Meets place known pre condition fun _ => tested)
    (hbody : Meets place known tested body post) (hstep : Meets place known stepping step fun _ => pre)
    (hround : ∀ exit store, exit = .normal ∨ exit = .continues → post exit store → stepping store)
    (hdone : ∀ store, tested store → post' .normal store) (hbroken : ∀ store, post .breaks store → post' .normal store)
    (hreturned : ∀ store, post .returns store → post' .returns store) :
    Meets place known pre (Loop condition body step) post' := by
  intro store trace exit hstore hcourse
  -- The induction is on the number of rounds; the store is free, because each round changes it.
  induction hcourse generalizing store with
  | done htest =>
    obtain ⟨hsound, hafter⟩ := hcondition store _ _ hstore htest
    exact ⟨hsound, hdone _ hafter⟩
  | broken htest hleft =>
    obtain ⟨hsound, hafter⟩ := hcondition store _ _ hstore htest
    obtain ⟨hsound', hafter'⟩ := hbody _ _ _ hafter hleft
    rw [holder_append]
    exact ⟨hsound.append hsound', hbroken _ hafter'⟩
  | returned htest hleft =>
    obtain ⟨hsound, hafter⟩ := hcondition store _ _ hstore htest
    obtain ⟨hsound', hafter'⟩ := hbody _ _ _ hafter hleft
    rw [holder_append]
    exact ⟨hsound.append hsound', hreturned _ hafter'⟩
  | again htest hleft hexit hstepped _ ih =>
    obtain ⟨hsound, hafter⟩ := hcondition store _ _ hstore htest
    obtain ⟨hsound', hafter'⟩ := hbody _ _ _ hafter hleft
    obtain ⟨hsound'', hafter''⟩ := hstep _ _ _ (hround _ _ hexit hafter') hstepped
    rw [← holder_append store, ← holder_append store] at hafter''
    obtain ⟨hrest, hlast⟩ := ih _ hafter''
    rw [← holder_append] at hsound''
    rw [holder_append]
    exact ⟨((hsound.append hsound').append hsound'').append hrest, hlast⟩

end Meets

end

end NanScript
