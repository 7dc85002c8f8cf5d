import NanScript.Proofs.Parser.Situation

/-!
# Frames

A frame is what readers can rely on around them: the depth of the scope, the class and the number of loops, the top-level
variables that can be in sight, and a number that all locals in sight are above. Each change of the scope goes from one frame to
another.
-/

namespace NanScript

open List

namespace Scope

theorem nextId_le_declare (scope : Scope) (name : String) : scope.nextId ≤ (scope.declare name).nextId := by
  unfold declare
  dsimp only
  split <;> omega

theorem nextId_markInitialized (scope : Scope) : scope.markInitialized.nextId = scope.nextId := by
  unfold markInitialized
  split <;> rfl

end Scope

namespace Parser

/-- What is around a reader: how deep it is, the top-level variables so far, and a number that all locals in sight are above. -/
structure Frame where
  depth : Nat
  globals : List String
  floor : Nat
  className : Option String
  loopDepth : Nat

namespace Frame

/-- What a name can mean that has been declared at a depth, where the next local gets the number `next`. -/
def Means (frame : Frame) (next depth : Nat) (name : String) : Symbol → Prop
  | .global => depth = 0 ∧ name ∈ frame.globals
  | .localVar var => depth ≠ 0 ∧ frame.floor < var ∧ var < next
  | .unresolved => False

/-- Inner names stand in front of outer ones, and only those of the top level are not local. -/
structure Around (frame : Frame) (setting : Context) : Prop where
  depth : setting.scope.depth = frame.depth
  floor : frame.floor < setting.scope.nextId
  sorted : setting.scope.bindings.Pairwise fun inner outer => outer.depth ≤ inner.depth
  within : ∀ binding ∈ setting.scope.bindings, binding.depth ≤ setting.scope.depth
  means : ∀ binding ∈ setting.scope.bindings, frame.Means setting.scope.nextId binding.depth binding.name binding.symbol
  className : setting.className = frame.className
  loopDepth : setting.loopDepth = frame.loopDepth

/-- A name has been declared at a depth. -/
def Declared (frame : Frame) (depth : Nat) (name : String) (symbol : Symbol) (setting : Context) : Prop :=
  frame.Around setting ∧ frame.Means setting.scope.nextId depth name symbol

/-- The frame one scope further in. -/
def inner (frame : Frame) : Frame := { frame with depth := frame.depth + 1 }

/-- The frame behind a declaration. -/
def widen (frame : Frame) (name : String) : Frame :=
  if frame.depth = 0 then { frame with globals := name :: frame.globals } else frame

variable {frame : Frame} {scope : Scope} {className : Option String} {loopDepth : Nat} {name : String} {symbol : Symbol}

theorem widen_nested (hnested : frame.depth ≠ 0) : frame.widen name = frame := if_neg hnested

variable {next depth : Nat}

section

variable (hmeans : frame.Means next depth name symbol)

include hmeans

theorem Means.mono {other : Frame} {next' : Nat} (hnext : next ≤ next') (hglobals : frame.globals ⊆ other.globals)
    (hfloor : other.floor ≤ frame.floor) : other.Means next' depth name symbol := by
  cases symbol with
  | global => exact ⟨hmeans.1, hglobals hmeans.2⟩
  | localVar id => exact ⟨hmeans.1, Nat.lt_of_le_of_lt hfloor hmeans.2.1, Nat.lt_of_lt_of_le hmeans.2.2 hnext⟩
  | unresolved => exact hmeans

omit hmeans in
theorem subset_widen : frame.globals ⊆ (frame.widen name).globals := by
  unfold widen
  split
  · exact subset_cons_self _ _
  · exact Subset.refl _

omit hmeans in
theorem floor_widen : (frame.widen name).floor = frame.floor := by
  unfold widen
  split <;> rfl

theorem Means.widen {other : String} : (frame.widen other).Means next depth name symbol :=
  hmeans.mono (Nat.le_refl _) subset_widen (Nat.le_of_eq floor_widen)

theorem Means.isLocal (hdepth : depth ≠ 0) : ∃ id, symbol = .localVar id := by
  cases symbol with
  | localVar id => exact ⟨id, rfl⟩
  | global => exact absurd hmeans.1 hdepth
  | unresolved => exact hmeans.elim

theorem Means.eq_global (hdepth : depth = 0) : symbol = .global := by
  cases symbol with
  | global => rfl
  | localVar id => exact absurd hdepth hmeans.1
  | unresolved => exact hmeans.elim

theorem Means.numbered : ∀ var ∈ symbol.local?, depth ≠ 0 ∧ frame.floor < var ∧ var < next := by
  intro var hvar
  cases symbol with
  | localVar id =>
    obtain rfl := Option.some.inj hvar
    exact hmeans
  | _ => cases hvar

end

namespace Around

/-- Behind the first name of an outer scope there are only names of outer scopes. -/
theorem leave (haround : frame.inner.Around ⟨scope, className, loopDepth⟩) :
    frame.Around ⟨scope.leave, className, loopDepth⟩ := by
  have hsublist := dropWhile_sublist (scope.depth - 1 < ·.depth) (l := scope.bindings)
  have hsorted := haround.sorted.sublist hsublist
  refine ⟨congrArg (· - 1) haround.depth, haround.floor, hsorted, fun binding hbinding => ?_,
    fun binding hbinding => haround.means binding (hsublist.subset hbinding), haround.className, haround.loopDepth⟩
  change binding ∈ scope.bindings.dropWhile _ at hbinding
  change binding.depth ≤ scope.depth - 1
  have hhead := head?_dropWhile_not (scope.depth - 1 < ·.depth) scope.bindings
  cases hdropped : scope.bindings.dropWhile (scope.depth - 1 < ·.depth) with
  | nil =>
    rw [hdropped] at hbinding
    contradiction
  | cons first others =>
    rw [hdropped] at hbinding hsorted hhead
    have hfirst : first.depth ≤ scope.depth - 1 := by simpa using hhead
    rcases mem_cons.1 hbinding with rfl | hbinding
    · exact hfirst
    · exact Nat.le_trans ((pairwise_cons.1 hsorted).1 binding hbinding) hfirst

variable (haround : frame.Around ⟨scope, className, loopDepth⟩)

include haround

theorem enter : frame.inner.Around ⟨scope.enter, className, loopDepth⟩ :=
  { haround with
    depth := congrArg (· + 1) haround.depth
    within := fun binding hbinding => Nat.le_succ_of_le (haround.within binding hbinding) }

theorem markInitialized : frame.Around ⟨scope.markInitialized, className, loopDepth⟩ := by
  unfold Scope.markInitialized
  split
  · exact haround
  · next latest others hbindings =>
    obtain ⟨hdepth, hfloor, hsorted, hwithin, hmeans, hclass, hloop⟩ := haround
    rw [hbindings] at hsorted hwithin hmeans
    exact ⟨hdepth, hfloor, pairwise_cons.2 (pairwise_cons.1 hsorted), forall_mem_cons.2 (forall_mem_cons.1 hwithin),
      forall_mem_cons.2 (forall_mem_cons.1 hmeans), hclass, hloop⟩

/-- A frame says no more about a setting than one that knows fewer top-level variables and a higher number. -/
theorem mono {globals : List String} {floor : Nat} (hglobals : frame.globals ⊆ globals) (hfloor : floor ≤ frame.floor) :
    Around { frame with globals, floor } ⟨scope, className, loopDepth⟩ :=
  { haround with
    floor := Nat.lt_of_le_of_lt hfloor haround.floor
    means := fun binding hbinding => (haround.means binding hbinding).mono (Nat.le_refl _) hglobals hfloor }

theorem widen (name : String) : (frame.widen name).Around ⟨scope, className, loopDepth⟩ := by
  unfold Frame.widen
  split
  · exact haround.mono (subset_cons_self _ _) (Nat.le_refl _)
  · exact haround

theorem declare (name : String) :
    (frame.widen name).Declared frame.depth name scope.nextSymbol ⟨scope.declare name, className, loopDepth⟩ := by
  have hwiden := haround.widen name
  have hdepth : scope.depth = frame.depth := haround.depth
  have hmeans : (frame.widen name).Means (scope.declare name).nextId frame.depth name scope.nextSymbol := by
    unfold Scope.nextSymbol Scope.declare Frame.widen
    rw [hdepth]
    by_cases htop : frame.depth = 0
    · simp [htop, Means]
    · simp only [htop, ↓reduceIte, beq_iff_eq, Means]
      exact ⟨htop, haround.floor, Nat.lt_succ_self _⟩
  refine ⟨{ hwiden with
    floor := Nat.lt_of_lt_of_le hwiden.floor (scope.nextId_le_declare name)
    sorted := pairwise_cons.2 ⟨hwiden.within, hwiden.sorted⟩
    within := forall_mem_cons.2 ⟨Nat.le_refl _, hwiden.within⟩
    means := forall_mem_cons.2 ⟨hdepth ▸ hmeans, fun binding hbinding => ?_⟩ }, hmeans⟩
  exact (hwiden.means binding hbinding).mono (scope.nextId_le_declare name) (Subset.refl _) (Nat.le_refl _)

theorem raise (htop : frame.depth = 0) {floor : Nat} (hfloor : floor < scope.nextId) :
    Around { frame with floor } ⟨scope, className, loopDepth⟩ := by
  refine { haround with floor := hfloor, means := fun binding hbinding => ?_ }
  have hdepth : binding.depth = 0 := Nat.le_zero.1 (htop ▸ haround.depth ▸ haround.within binding hbinding)
  have hmeans := haround.means binding hbinding
  have hglobal := hmeans.eq_global hdepth
  rw [hglobal] at hmeans ⊢
  exact hmeans

/-- What a name means has been declared around it. -/
theorem resolve (name : String) :
    scope.resolve name = .unresolved ∨ ∃ depth ≤ frame.depth, frame.Means scope.nextId depth name (scope.resolve name) := by
  unfold Scope.resolve
  cases hfind : scope.find? name with
  | none => exact .inl rfl
  | some binding =>
    have hbinding := mem_of_find?_eq_some hfind
    have hname : binding.name = name := by simpa using find?_some hfind
    exact .inr ⟨binding.depth, haround.depth ▸ haround.within binding hbinding, hname ▸ haround.means binding hbinding⟩

/-- What a frame says of a name. -/
theorem knows (hsymbol : symbol = scope.resolve name) : (symbol = .global → name ∈ frame.globals) ∧
    ∀ var ∈ symbol.local?, frame.depth ≠ 0 ∧ frame.floor < var ∧ var < scope.nextId := by
  rcases haround.resolve name with hunresolved | ⟨depth, hdepth, hmeans⟩
  · rw [hsymbol, hunresolved]
    exact ⟨nofun, nofun⟩
  · rw [← hsymbol] at hmeans
    refine ⟨?_, fun var hvar => ⟨fun htop => (hmeans.numbered var hvar).1 (Nat.le_zero.1 (htop ▸ hdepth)), (hmeans.numbered var hvar).2⟩⟩
    rintro rfl
    exact hmeans.2

/-- What has been declared in the innermost scope is of the kind of that scope. -/
theorem means_declaredHere? (hhere : scope.declaredHere? name = some symbol) : frame.Means scope.nextId frame.depth name symbol := by
  obtain ⟨binding, hfind, rfl⟩ := Option.map_eq_some_iff.1 hhere
  have hbinding := mem_of_find?_eq_some hfind
  have hname : binding.name = name := by simpa using find?_some hfind
  have hdepth : binding.depth = scope.depth := by
    simpa using all_eq_true.1 all_takeWhile binding hbinding
  have hmeans := haround.means binding ((takeWhile_sublist _).subset hbinding)
  rwa [hname, hdepth, haround.depth] at hmeans

end Around

theorem Declared.markInitialized (hdeclared : frame.Declared depth name symbol ⟨scope, className, loopDepth⟩) :
    frame.Declared depth name symbol ⟨scope.markInitialized, className, loopDepth⟩ :=
  ⟨hdeclared.1.markInitialized, scope.nextId_markInitialized ▸ hdeclared.2⟩

end Frame

end Parser
end NanScript
