import NanScript.Proofs.Parser.Recovered

/-!
# What parsing always gives

For every text, whatever is wrong with it, the arena is a forest that holds the declarations, and no declaration finds anything
left over from the ones in front: neither open scopes nor local names, neither loops nor a class.
-/

namespace NanScript

open NanScript.Parser

/-- Every reference of the arena and the first declaration, each listed as often as it occurs. -/
def Parsed.references (parsed : Parsed) : List NodeId :=
  (Tree.headId parsed.program).toList ++ (List.range parsed.arena.size).flatMap parsed.arena.references

/-- Children are older than their parents, siblings come in the order of their making and lists end, with as many members as their
parents count. Nothing is referred to twice, so a walk through the declarations meets each node once. -/
theorem parse_builds_forest (source : String) :
    (∀ id node, (parse source).arena.get? id = some node →
      (∀ child ∈ node.kind.references, child < id ∧ ((parse source).arena.get? child).isSome) ∧
      (∀ next ∈ node.next, id < next ∧ ((parse source).arena.get? next).isSome) ∧
      ∃ ids : List NodeId, (∀ member ∈ ids, member < id) ∧
        (∀ limit, ids.length ≤ limit → (parse source).arena.siblings limit node.kind.firstChild = some ids) ∧
        ∀ count ∈ node.kind.count?, ids.length = count) ∧
    (∀ first ∈ Tree.headId (parse source).program, ((parse source).arena.get? first).isSome) ∧
    (∀ limit, (parse source).program.length ≤ limit →
      (parse source).arena.siblings limit (Tree.headId (parse source).program) = some ((parse source).program.map Tree.id)) ∧
    (parse source).references.Nodup ∧
    (∀ tree ∈ (parse source).program, tree.Each (parse source).arena.Holds) ∧
    (((parse source).program.flatMap Tree.nodes).map Tree.id).Nodup := by
  obtain ⟨state, hreading, harena⟩ := reading_parse source
  have hholding := hreading.between.1.holding
  have hroot : ∀ id ∈ (parse source).program.map Tree.id, id < state.arena.size := by
    intro id hid
    obtain ⟨tree, htree, rfl⟩ := List.mem_map.1 hid
    exact hholding.lt_size htree tree.mem_nodes_self
  obtain ⟨hforest, hhead⟩ := hholding.forest.link hholding.sorted fun id hid => hid
  rw [List.nil_append, ← harena] at hforest hhead
  have hvalid {id : NodeId} (hid : id < (parse source).arena.size) : ((parse source).arena.get? id).isSome :=
    hforest.packed.isSome_get? hid
  have hsize : (parse source).arena.size = state.arena.size := by rw [harena, Arena.size_chain]
  refine ⟨fun id node hnode => ⟨fun child hchild => ?_, fun next hnext => ?_, hforest.counted id node hnode⟩, fun first hfirst => ?_,
    fun limit hlimit => ?_, ?_, stored_parse source, hholding.distinct⟩
  · have hless := hforest.older id node hnode child hchild
    exact ⟨hless, hvalid (Nat.lt_trans hless (hforest.packed.lt_size hnode))⟩
  · exact (hforest.later id node hnode next hnext).imp_right hvalid
  · rw [Tree.headId, ← List.head?_map] at hfirst
    exact hvalid (hsize ▸ hroot first (List.mem_of_mem_head? hfirst))
  · rw [harena, Tree.headId, ← List.head?_map]
    refine Arena.siblings_chain (hholding.sorted.imp Nat.ne_of_lt) hroot (fun id hid => ?_) (by rwa [List.length_map])
    exact hholding.forest.packed.isSome_get? (hroot id hid)
  · refine List.nodup_append.2 ⟨by cases Tree.headId (parse source).program <;> simp,
      List.nodup_flatMap.2 ⟨fun id _ => hforest.once id, ?_⟩, ?_⟩
    · exact List.nodup_range.imp fun hne => hforest.apart _ _ hne
    · rintro first hfirst _ hmem rfl
      obtain ⟨other, -, hother⟩ := List.mem_flatMap.1 hmem
      rw [Tree.headId, ← List.head?_map] at hfirst
      exact hhead first (Option.mem_toList.1 hfirst) other hother

/-- A local variable with a positive number. -/
def Symbol.IsNumbered (symbol : Symbol) : Prop := ∃ number, symbol = .localVar number ∧ 0 < number

namespace Tree

/-- A function with the name that it has in a class or outside of all. What it declares is local. -/
def IsRoutine (className : Option String) : Tree → Prop
  | funcDecl _ name sourceName parameters body => name = codeNameOf className sourceName ∧
    (∀ parameter ∈ parameters, ∃ note name symbol, parameter = var note name symbol ∧ symbol.IsNumbered) ∧
    ∀ note name symbol managed initial, varDecl note name symbol managed initial ∈ body.nodes → symbol.IsNumbered
  | _ => False

/-- A declaration at the top level. -/
def IsTopLevel : Tree → Prop
  | varDecl _ _ symbol _ _ => symbol = .global
  | classDecl _ className methods => ∀ method ∈ methods, method.IsRoutine (some className)
  | tree => tree.IsRoutine none

theorem isRoutine_of_isCode {frame : Frame} {tree : Tree} (hcode : frame.IsCode tree) : tree.IsRoutine frame.className := by
  cases tree with
  | funcDecl note name sourceName parameters body =>
    refine ⟨hcode.1, fun parameter hparameter => ?_, fun note name symbol managed initial hmem => ?_⟩
    · obtain ⟨hkind, habove⟩ := hcode.2.1 parameter hparameter parameter parameter.mem_nodes_self
      cases parameter with
      | var note name symbol =>
        obtain ⟨id, rfl⟩ := hkind
        exact ⟨note, name, _, rfl, id, rfl, Nat.zero_lt_of_lt (habove id rfl)⟩
      | _ => exact hkind.elim
    · obtain ⟨⟨id, rfl⟩, habove⟩ := hcode.2.2 _ hmem
      exact ⟨id, rfl, Nat.zero_lt_of_lt (habove id rfl)⟩
  | _ => exact hcode

theorem isTopLevel_of_isDeclared {frame : Frame} {tree : Tree} (hdeclared : frame.IsDeclared tree) (hclass : frame.className = none) :
    tree.IsTopLevel := by
  cases tree with
  | varDecl => exact hdeclared.1
  | classDecl => exact fun method hmethod => isRoutine_of_isCode (hdeclared.1 method hmethod)
  | funcDecl note name sourceName parameters body =>
    have hcode : frame.IsCode (funcDecl note name sourceName parameters body) := hdeclared
    have hroutine := isRoutine_of_isCode hcode
    rw [hclass] at hroutine
    exact hroutine
  | _ => exact hdeclared

end Tree

/-- Whatever errors the declarations in front have, the next one is read at the top level, outside of loops and classes and with no
local name in sight. So top-level variables are global and those of functions local, with numbers that no other function has. -/
theorem errors_leave_no_scope (source : String) :
    (∃ state, Parser.Reading source (parse source).program state) ∧
    (∀ members state, Parser.Reading source members state → state.scope.depth = 0 ∧
      (∀ binding ∈ state.scope.bindings, binding.depth = 0 ∧ binding.symbol = .global) ∧ state.loopDepth = 0 ∧ state.className = none) ∧
    (∀ tree ∈ (parse source).program, tree.IsTopLevel) ∧
    (functionDeclarations (parse source).program).Pairwise fun first second => first.locals.Disjoint second.locals := by
  obtain ⟨state, hreading, -⟩ := reading_parse source
  refine ⟨⟨state, hreading⟩, fun members state hreading => ?_, fun tree htree => ?_, ?_⟩
  · have haround : (Parser.Frame.top _).Around state.context := hreading.between.1.around
    have hscope : state.scope.depth = 0 := haround.depth
    refine ⟨hscope, fun binding hbinding => ?_, haround.loopDepth, haround.className⟩
    have hdepth : binding.depth = 0 := Nat.le_zero.1 (hscope ▸ haround.within binding hbinding)
    exact ⟨hdepth, (haround.means binding hbinding).eq_global hdepth⟩
  · exact Tree.isTopLevel_of_isDeclared (hreading.between.1.good tree htree) rfl
  · exact hreading.between.2.imp fun hless var hfirst hsecond => Nat.lt_irrefl _ (hless var hfirst var hsecond)

/-- A loop, a function and its class that are all left open. -/
theorem errors_leave_no_scope_open :
    let source := "class A \x7b func f(x \x7b while (x) \x7b var y = ;"
    let state := (Parser.State.initial (tokens source)).advance
    let after := ((Parser.recover : Parser Unit) ((Parser.declaration (Parser.depthBound (tokens source)) : Parser _) state).2).2
    state.current.kind ≠ .eof ∧ after.scope.depth = 0 ∧ after.loopDepth = 0 ∧ after.className = none := by
  intro source state after
  have hkind : (Parser.State.initial (tokens "class A \x7b func f(x \x7b while (x) \x7b var y = ;")).advance.current.kind = .kwClass := by decide +kernel
  have hmore : state.current.kind ≠ .eof := by
    change (Parser.State.initial (tokens "class A \x7b func f(x \x7b while (x) \x7b var y = ;")).advance.current.kind ≠ _
    rw [hkind]
    decide
  obtain ⟨hdepth, -, hrest⟩ := (errors_leave_no_scope source).2.1 _ after (.next .start hmore)
  exact ⟨hmore, hdepth, hrest⟩

end NanScript
