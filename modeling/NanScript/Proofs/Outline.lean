import Mathlib.Data.List.Duplicate
import NanScript.Assembly.Program

/-!
# What an outline says

The outline of a program knows its functions, top-level variables and classes, each by its name. There is none if a function has
the name of the entry or of an export of the runtime, or the name of another function, and in no other case.
-/

namespace NanScript

open List

/-- The name in the assembly of a function or method. -/
def Tree.functionName? : Tree → Option String
  | .funcDecl _ name _ _ _ => some name
  | _ => none

/-- The names in the assembly of the functions and methods of a program. -/
def functionNames (program : List Tree) : List String := (functionDeclarations program).filterMap Tree.functionName?

def classNames (program : List Tree) : List String :=
  program.filterMap fun
    | .classDecl _ name _ => some name
    | _ => none

theorem functionNames_append (front back : List Tree) :
    functionNames (front ++ back) = functionNames front ++ functionNames back := by
  simp [functionNames, functionDeclarations]

theorem functionNames_class {note : Note} {name : String} {methods : List Tree} :
    functionNames [.classDecl note name methods] = methods.filterMap Tree.functionName? := by
  simp [functionNames, functionDeclarations]

/-- The entry and the exports of the runtime cannot be redefined. -/
def Reserved (name : String) : Prop := name = "main" ∨ name ∈ runtimeExports

instance : DecidablePred Reserved := fun name => inferInstanceAs (Decidable (name = "main" ∨ name ∈ runtimeExports))

/-- Why functions cannot have these names. -/
inductive Clash (names : List String) : CodegenError → Prop
  | reserved {name : String} (hname : name ∈ names) (hreserved : Reserved name) : Clash names (.reservedName name)
  | duplicate {name : String} (hduplicate : Duplicate name names) : Clash names (.duplicateFunction name)

namespace Outline

variable {outline after : Outline} {name : String} {problem : CodegenError} {program : List Tree} {tree : Tree}

theorem reserved_iff : (name == "main" || runtimeExports.contains name) = true ↔ Reserved name := by
  rw [Bool.or_eq_true, beq_iff_eq, contains_iff_mem, Reserved]

theorem define_eq_ok (hdefine : outline.define name = .ok after) :
    after = { outline with functions := outline.functions ++ [name] } ∧ ¬ Reserved name ∧ name ∉ outline.functions := by
  unfold define at hdefine
  split at hdefine
  · contradiction
  · next hfree =>
    split at hdefine
    · contradiction
    · next hnew =>
      exact ⟨(Except.ok.inj hdefine).symm, fun hreserved => hfree (reserved_iff.2 hreserved),
        fun hold => hnew (contains_iff_mem.2 hold)⟩

theorem define_eq_error (hdefine : outline.define name = .error problem) {rest : List String} :
    Clash (outline.functions ++ name :: rest) problem := by
  unfold define at hdefine
  split at hdefine
  · next hreserved =>
    obtain rfl := Except.error.inj hdefine
    exact .reserved (by simp) (reserved_iff.1 hreserved)
  · split at hdefine
    · next hold =>
      obtain rfl := Except.error.inj hdefine
      refine .duplicate (duplicate_iff_two_le_count.2 ?_)
      have hcount : 0 < outline.functions.count name := count_pos_iff.2 (contains_iff_mem.1 hold)
      rw [count_append, count_cons_self]
      omega
    · contradiction

/-- What an outline says behind some declarations. -/
structure Describes (before : Outline) (program : List Tree) (outline : Outline) : Prop where
  functions : outline.functions = before.functions ++ functionNames program
  free : ∀ name ∈ functionNames program, ¬ Reserved name
  nodup : before.functions.Nodup → outline.functions.Nodup
  globals : ∀ name, name ∈ outline.globals ↔ name ∈ before.globals ∨ name ∈ globalDeclarations program
  distinct : before.globals.Nodup → outline.globals.Nodup
  classes : ∀ name, (outline.methods? name).isSome = true ↔ (before.methods? name).isSome = true ∨ name ∈ classNames program

theorem Describes.refl (outline : Outline) : outline.Describes [] outline where
  functions := (append_nil _).symm
  free _ hname := absurd hname not_mem_nil
  nodup hnodup := hnodup
  globals _ := by simp [globalDeclarations]
  distinct hdistinct := hdistinct
  classes _ := by simp [classNames]

theorem Describes.trans {first second third : Outline} {front back : List Tree} (h : Describes first front second)
    (h' : Describes second back third) : Describes first (front ++ back) third where
  functions := by rw [h'.functions, h.functions, functionNames_append, append_assoc]
  free name hname := by
    rw [functionNames_append] at hname
    rcases mem_append.1 hname with hname | hname
    · exact h.free name hname
    · exact h'.free name hname
  nodup hnodup := h'.nodup (h.nodup hnodup)
  globals name := by
    rw [h'.globals, h.globals, globalDeclarations, globalDeclarations, globalDeclarations, filterMap_append,
      mem_append, or_assoc]
  distinct hdistinct := h'.distinct (h.distinct hdistinct)
  classes name := by
    rw [h'.classes, h.classes, classNames, classNames, classNames, filterMap_append, mem_append, or_assoc]

theorem defineMethods_eq_ok {methods : List Tree} (hdefine : outline.defineMethods methods = .ok after) :
    after = { outline with functions := outline.functions ++ methods.filterMap Tree.functionName? } ∧
      (∀ name ∈ methods.filterMap Tree.functionName?, ¬ Reserved name) ∧
      (outline.functions.Nodup → after.functions.Nodup) := by
  induction methods generalizing outline with
  | nil =>
    obtain rfl := Except.ok.inj hdefine
    simp
  | cons tree rest ih =>
    cases tree with
    | funcDecl _ name =>
      unfold defineMethods at hdefine
      cases hone : outline.define name with
      | error problem =>
        rw [hone] at hdefine
        contradiction
      | ok middle =>
        rw [hone] at hdefine
        obtain ⟨rfl, hfree, hnew⟩ := define_eq_ok hone
        obtain ⟨rfl, hfree', hnodup⟩ := ih hdefine
        refine ⟨by simp [Tree.functionName?], forall_mem_cons.2 ⟨hfree, hfree'⟩, ?_⟩
        intro hold
        refine hnodup (nodup_append.2 ⟨hold, nodup_singleton _, ?_⟩)
        rintro other hother _ hname rfl
        exact hnew (mem_singleton.1 hname ▸ hother)
    | _ => exact ih hdefine

theorem defineMethods_eq_error {methods : List Tree} (hdefine : outline.defineMethods methods = .error problem)
    {rest : List String} : Clash (outline.functions ++ (methods.filterMap Tree.functionName? ++ rest)) problem := by
  induction methods generalizing outline with
  | nil => contradiction
  | cons tree others ih =>
    cases tree with
    | funcDecl _ name =>
      unfold defineMethods at hdefine
      cases hone : outline.define name with
      | error error =>
        rw [hone] at hdefine
        obtain rfl := Except.error.inj hdefine
        exact define_eq_error hone
      | ok middle =>
        rw [hone] at hdefine
        obtain ⟨rfl, -, -⟩ := define_eq_ok hone
        have hclash := ih hdefine
        rw [append_assoc] at hclash
        exact hclash
    | _ => exact ih hdefine

theorem mem_declareGlobal {other : String} : other ∈ (outline.declareGlobal name).globals ↔ other ∈ outline.globals ∨ other = name := by
  unfold declareGlobal
  split
  · next hold =>
    have hmem : name ∈ outline.globals := contains_iff_mem.1 hold
    exact ⟨.inl, fun hother => hother.elim id fun hsame => hsame ▸ hmem⟩
  · simp

theorem nodup_declareGlobal (hdistinct : outline.globals.Nodup) : (outline.declareGlobal name).globals.Nodup := by
  unfold declareGlobal
  split
  · exact hdistinct
  · next hnew =>
    refine nodup_append.2 ⟨hdistinct, nodup_singleton _, ?_⟩
    rintro other hother _ hname rfl
    exact hnew (contains_iff_mem.2 (mem_singleton.1 hname ▸ hother))

theorem functions_declareGlobal : (outline.declareGlobal name).functions = outline.functions := by
  unfold declareGlobal
  split <;> rfl

theorem classes_declareGlobal : (outline.declareGlobal name).classes = outline.classes := by
  unfold declareGlobal
  split <;> rfl

theorem describes_declare (hdeclare : outline.declare tree = .ok after) : outline.Describes [tree] after := by
  cases tree with
  | varDecl _ name =>
    obtain rfl := Except.ok.inj hdeclare
    refine ⟨?_, fun _ hname => absurd hname not_mem_nil, ?_, fun other => ?_, nodup_declareGlobal, fun other => ?_⟩
    · exact functions_declareGlobal.trans (append_nil _).symm
    · intro hnodup
      rw [functions_declareGlobal]
      exact hnodup
    · rw [mem_declareGlobal]
      simp [globalDeclarations]
    · rw [methods?, classes_declareGlobal]
      simp [methods?, classNames]
  | funcDecl _ name =>
    obtain ⟨rfl, hfree, hnew⟩ := define_eq_ok hdeclare
    refine ⟨rfl, forall_mem_cons.2 ⟨hfree, by simp⟩, fun hold => ?_, fun other => ?_, fun hdistinct => hdistinct, fun other => ?_⟩
    · refine nodup_append.2 ⟨hold, nodup_singleton _, ?_⟩
      rintro other hother _ hname rfl
      exact hnew (mem_singleton.1 hname ▸ hother)
    · simp [globalDeclarations]
    · simp [methods?, classNames]
  | classDecl _ name methods =>
    obtain ⟨rfl, hfree, hnodup⟩ := defineMethods_eq_ok hdeclare
    refine ⟨?_, ?_, hnodup, fun other => ?_, fun hdistinct => hdistinct, fun other => ?_⟩
    · rw [functionNames_class]
    · rw [functionNames_class]
      exact hfree
    · simp [globalDeclarations]
    · cases hsame : other == name with
      | true => simp [methods?, classNames, beq_iff_eq.1 hsame]
      | false => simp [methods?, classNames, hsame, lookup_cons, beq_eq_false_iff_ne.1 hsame]
  | _ =>
    obtain rfl := Except.ok.inj hdeclare
    exact ⟨(append_nil _).symm, fun _ hname => absurd hname not_mem_nil, fun hnodup => hnodup,
      fun _ => by simp [globalDeclarations], fun hdistinct => hdistinct, fun _ => by simp [classNames]⟩

theorem declare_eq_error (hdeclare : outline.declare tree = .error problem) {rest : List String} :
    Clash (outline.functions ++ (functionNames [tree] ++ rest)) problem := by
  cases tree with
  | funcDecl _ name => exact @define_eq_error { outline with hasMain := _ } _ _ hdeclare _
  | classDecl _ name methods =>
    rw [functionNames_class]
    exact @defineMethods_eq_error { outline with classes := _ } _ _ hdeclare _
  | _ => contradiction

theorem foldlM_cons_eq_ok {rest : List Tree} (hfold : (tree :: rest).foldlM declare outline = .ok after) :
    ∃ middle, outline.declare tree = .ok middle ∧ rest.foldlM declare middle = .ok after := by
  rw [foldlM_cons] at hfold
  cases hone : outline.declare tree with
  | error =>
    rw [hone] at hfold
    contradiction
  | ok middle =>
    rw [hone] at hfold
    exact ⟨middle, rfl, hfold⟩

theorem describes_foldlM (hfold : program.foldlM declare outline = .ok after) : outline.Describes program after := by
  induction program generalizing outline with
  | nil =>
    obtain rfl := Except.ok.inj hfold
    exact .refl _
  | cons tree rest ih =>
    obtain ⟨middle, hone, hfold⟩ := foldlM_cons_eq_ok hfold
    exact (describes_declare hone).trans (ih hfold)

theorem clash_of_foldlM (hfold : program.foldlM declare outline = .error problem) :
    Clash (outline.functions ++ functionNames program) problem := by
  induction program generalizing outline with
  | nil => contradiction
  | cons tree rest ih =>
    rw [foldlM_cons] at hfold
    have hnames : functionNames (tree :: rest) = functionNames [tree] ++ functionNames rest := functionNames_append [tree] rest
    cases hone : outline.declare tree with
    | error error =>
      rw [hone] at hfold
      obtain rfl := Except.error.inj hfold
      rw [hnames]
      exact declare_eq_error hone
    | ok middle =>
      rw [hone] at hfold
      have hclash := ih hfold
      rw [(describes_declare hone).functions, append_assoc, ← hnames] at hclash
      exact hclash

theorem describes_ofProgram (houtline : ofProgram program = .ok outline) :
    Describes {} program outline := describes_foldlM houtline

theorem clash_of_ofProgram (houtline : ofProgram program = .error problem) :
    Clash (functionNames program) problem := clash_of_foldlM houtline

/-! ### What an outline promises -/

/-- What the classes and the entry refer to is among the functions. -/
structure Consistent (outline : Outline) : Prop where
  methods : ∀ entry ∈ outline.classes, ∀ name ∈ entry.2.filterMap Tree.functionName?, name ∈ outline.functions
  main : outline.hasMain = true → "aria_main" ∈ outline.functions

theorem hasMain_declareGlobal : (outline.declareGlobal name).hasMain = outline.hasMain := by
  unfold declareGlobal
  split <;> rfl

theorem Consistent.declare (hconsistent : outline.Consistent) (hdeclare : outline.declare tree = .ok after) :
    after.Consistent := by
  cases tree with
  | varDecl _ name =>
    obtain rfl := Except.ok.inj hdeclare
    constructor
    · rw [classes_declareGlobal, functions_declareGlobal]
      exact hconsistent.methods
    · rw [hasMain_declareGlobal, functions_declareGlobal]
      exact hconsistent.main
  | funcDecl _ name =>
    obtain ⟨rfl, -, -⟩ := define_eq_ok hdeclare
    refine ⟨fun entry hentry other hother => mem_append_left _ (hconsistent.methods entry hentry other hother), fun hmain => ?_⟩
    rcases Bool.or_eq_true_iff.1 hmain with hmain | hname
    · exact mem_append_left _ (hconsistent.main hmain)
    · exact mem_append_right _ (mem_singleton.2 (beq_iff_eq.1 hname).symm)
  | classDecl _ name methods =>
    obtain ⟨rfl, -, -⟩ := defineMethods_eq_ok hdeclare
    refine ⟨fun entry hentry other hother => ?_, fun hmain => mem_append_left _ (hconsistent.main hmain)⟩
    rcases mem_cons.1 hentry with rfl | hentry
    · exact mem_append_right _ hother
    · exact mem_append_left _ (hconsistent.methods entry hentry other hother)
  | _ =>
    obtain rfl := Except.ok.inj hdeclare
    exact hconsistent

theorem Consistent.foldlM (hconsistent : outline.Consistent)
    (hfold : program.foldlM Outline.declare outline = .ok after) : after.Consistent := by
  induction program generalizing outline with
  | nil =>
    obtain rfl := Except.ok.inj hfold
    exact hconsistent
  | cons tree rest ih =>
    obtain ⟨middle, hone, hfold⟩ := foldlM_cons_eq_ok hfold
    exact ih (hconsistent.declare hone) hfold

theorem consistent_ofProgram (houtline : ofProgram program = .ok outline) : outline.Consistent :=
  Consistent.foldlM ⟨fun _ hentry => absurd hentry not_mem_nil, fun hmain => absurd hmain Bool.false_ne_true⟩ houtline

end Outline

end NanScript
