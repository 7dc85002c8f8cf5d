import NanScript.Scope

/-!
# Names in sight

Between statements every name in sight has its value, and none was declared deeper than the innermost scope
(`Scope.Steady`). There `declaredHere?` is a question about a list of names, `here`, and what is declared in a scope is
gone when the scope is left.
-/

namespace NanScript.Scope

open List

def here (scope : Scope) : List String := (scope.bindings.takeWhile (·.depth == scope.depth)).map (·.name)

/-- Every name has its value, and no name belongs to a deeper scope. -/
def Steady (scope : Scope) : Prop := ∀ binding ∈ scope.bindings, binding.depth ≤ scope.depth ∧ binding.initialized = true

/-- Declare a name that has its value at once. -/
def bind (scope : Scope) (name : String) : Scope := (scope.declare name).markInitialized

theorem steady_initial : initial.Steady := by
  simp [Steady, initial]

/-! ### Declarations -/

@[simp] theorem bindings_bind (scope : Scope) (name : String) :
    (scope.bind name).bindings = ⟨name, scope.depth, scope.nextSymbol, true⟩ :: scope.bindings := rfl

@[simp] theorem depth_bind (scope : Scope) (name : String) : (scope.bind name).depth = scope.depth := rfl

variable {scope : Scope}

theorem declaredHere?_eq_none {name : String} : scope.declaredHere? name = none ↔ name ∉ scope.here := by
  simp only [declaredHere?, here, Option.map_eq_none_iff, find?_eq_none, mem_map, beq_iff_eq, not_exists, not_and]

@[simp] theorem here_bind (scope : Scope) (name : String) : (scope.bind name).here = name :: scope.here := by
  simp [here]

/-! ### Initial values -/

theorem Steady.isUninitialized (hsteady : scope.Steady) (name : String) : scope.isUninitialized name = false := by
  unfold Scope.isUninitialized find?
  cases hfind : scope.bindings.find? (·.name == name) with
  | none => rfl
  | some binding =>
    have hvalue := (hsteady binding (mem_of_find?_eq_some hfind)).2
    simp [hvalue]

/-- While the initial value of a local variable is read, that variable is the only one without a value. -/
theorem Steady.isUninitialized_declare (hsteady : scope.Steady) {declared : String} (name : String) :
    (scope.declare declared).isUninitialized name = (scope.depth != 0 && name == declared) := by
  by_cases hname : declared = name
  · subst hname
    cases hdepth : scope.depth == 0 <;> simp [Scope.isUninitialized, find?, declare, bne, hdepth]
  · have hothers := hsteady.isUninitialized name
    unfold Scope.isUninitialized find? at hothers ⊢
    simp [declare, hname, hothers, Ne.symm hname]

/-! ### Inner scopes -/

@[simp] theorem bindings_enter (scope : Scope) : scope.enter.bindings = scope.bindings := rfl

@[simp] theorem depth_enter (scope : Scope) : scope.enter.depth = scope.depth + 1 := rfl

theorem Steady.enter (hsteady : scope.Steady) : scope.enter.Steady := by
  intro binding hbinding
  obtain ⟨hdepth, hvalue⟩ := hsteady binding hbinding
  exact ⟨Nat.le_succ_of_le hdepth, hvalue⟩

theorem Steady.here_enter (hsteady : scope.Steady) : scope.enter.here = [] := by
  unfold here
  cases hbindings : scope.bindings with
  | nil => simp [hbindings]
  | cons binding others =>
    have hdepth := (hsteady binding (by simp [hbindings])).1
    have houter : ¬ binding.depth = scope.depth + 1 := by omega
    simp [hbindings, houter]

/-! ### Growth -/

/-- `inner` is `outer` with some names declared in its innermost scope, the last of them in front. -/
structure Extends (outer : Scope) (names : List String) (inner : Scope) : Prop where
  depth : inner.depth = outer.depth
  bindings : ∃ declared, inner.bindings = declared ++ outer.bindings ∧ declared.map (·.name) = names.reverse ∧
    ∀ binding ∈ declared, binding.depth = outer.depth ∧ binding.initialized = true
  nextId : outer.nextId ≤ inner.nextId

theorem Extends.refl (scope : Scope) : Extends scope [] scope :=
  ⟨rfl, ⟨[], by simp⟩, Nat.le_refl _⟩

variable {names names' : List String}

theorem Extends.trans {first second third : Scope} (h : Extends first names second) (h' : Extends second names' third) :
    Extends first (names ++ names') third := by
  obtain ⟨declared, hbindings, hnames, hdeclared⟩ := h.bindings
  obtain ⟨declared', hbindings', hnames', hdeclared'⟩ := h'.bindings
  refine ⟨h'.depth.trans h.depth, ⟨declared' ++ declared, ?_, ?_, ?_⟩, Nat.le_trans h.nextId h'.nextId⟩
  · rw [hbindings', hbindings, append_assoc]
  · simp [hnames, hnames']
  · intro binding hbinding
    rcases mem_append.1 hbinding with hbinding | hbinding
    · rw [← h.depth]
      exact hdeclared' binding hbinding
    · exact hdeclared binding hbinding

theorem extends_bind (scope : Scope) (name : String) : Extends scope [name] (scope.bind name) := by
  refine ⟨rfl, ⟨[⟨name, scope.depth, scope.nextSymbol, true⟩], by simp, by simp, by simp⟩, ?_⟩
  simp only [bind, declare, markInitialized]
  split <;> omega

variable {outer inner : Scope}

theorem Extends.steady (h : Extends outer names inner) (hsteady : outer.Steady) : inner.Steady := by
  obtain ⟨declared, hbindings, -, hdeclared⟩ := h.bindings
  intro binding hbinding
  rw [h.depth]
  rw [hbindings] at hbinding
  rcases mem_append.1 hbinding with hbinding | hbinding
  · obtain ⟨hdepth, hvalue⟩ := hdeclared binding hbinding
    exact ⟨Nat.le_of_eq hdepth, hvalue⟩
  · exact hsteady binding hbinding

theorem Extends.here (h : Extends outer names inner) : inner.here = names.reverse ++ outer.here := by
  obtain ⟨declared, hbindings, hnames, hdeclared⟩ := h.bindings
  unfold Scope.here
  rw [hbindings, h.depth, takeWhile_append_of_pos]
  · rw [map_append, hnames]
  · intro binding hbinding
    simp [(hdeclared binding hbinding).1]

theorem Extends.fresh_append (h : Extends outer names inner) (hnodup : names.Nodup)
    (hfresh : ∀ name ∈ names, name ∉ outer.here) (hnodup' : names'.Nodup) (hfresh' : ∀ name ∈ names', name ∉ inner.here)
    : (names ++ names').Nodup ∧ ∀ name ∈ names ++ names', name ∉ outer.here := by
  rw [h.here] at hfresh'
  constructor
  · refine nodup_append.2 ⟨hnodup, hnodup', ?_⟩
    rintro name hname _ hname' rfl
    exact hfresh' name hname' (by simp [hname])
  · intro name hname hhere
    rcases mem_append.1 hname with hname | hname
    · exact hfresh name hname hhere
    · exact hfresh' name hname (by simp [hhere])

theorem Extends.fresh_tail (h : Extends outer names inner) (hnodup : (names ++ names').Nodup)
    (hfresh : ∀ name ∈ names ++ names', name ∉ outer.here) : names'.Nodup ∧ ∀ name ∈ names', name ∉ inner.here := by
  obtain ⟨-, hnodup', hdisjoint⟩ := nodup_append.1 hnodup
  refine ⟨hnodup', fun name hname hhere => ?_⟩
  rw [h.here] at hhere
  rcases mem_append.1 hhere with hhere | hhere
  · exact hdisjoint name (mem_reverse.1 hhere) name hname rfl
  · exact hfresh name (mem_append_right _ hname) hhere

theorem Extends.leave (h : Extends outer.enter names inner) (hsteady : outer.Steady) :
    inner.leave = { outer with nextId := inner.nextId } := by
  obtain ⟨declared, hbindings, -, hdeclared⟩ := h.bindings
  have hbehind : (declared ++ outer.bindings).dropWhile (outer.depth < ·.depth) = outer.bindings := by
    rw [dropWhile_append_of_pos]
    · cases houter : outer.bindings with
      | nil => rfl
      | cons binding others =>
        have hbound := (hsteady binding (by simp [houter])).1
        have hnot : ¬ outer.depth < binding.depth := by omega
        simp [hnot]
    · intro binding hbinding
      simp [(hdeclared binding hbinding).1]
  unfold Scope.leave
  rw [h.depth, hbindings]
  simp only [depth_enter, bindings_enter, Nat.add_sub_cancel, hbehind]

theorem Extends.extends_leave (h : Extends outer.enter names inner) (hsteady : outer.Steady) :
    Extends outer [] inner.leave := by
  rw [h.leave hsteady]
  exact ⟨rfl, ⟨[], by simp⟩, h.nextId⟩

end NanScript.Scope
