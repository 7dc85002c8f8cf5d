import NanScript.Proofs.Allocation.Sharing
import NanScript.Proofs.Nodes

/-!
# Every local has a place

The walk that numbers a function meets each local that its nodes mention, in whatever order, so linear scan gives it a
location. Only functions and classes inside of a body would be left out.
-/

namespace NanScript

open List

namespace Tree

/-- The local that a node itself mentions. -/
def local? : Tree → Option Nat
  | var _ _ symbol | assign _ _ symbol _ | varDecl _ _ symbol _ _ => symbol.local?
  | _ => none

end Tree

/-- The local that a node mentions has an interval. -/
def Walk.Knows (walk : Walk) (node : Tree) : Prop := ∀ id ∈ node.local?, ∃ index, Interval.Covers walk.intervals id index

theorem Tree.Each.of_grows {old new : Walk} {tree : Tree} (hknows : tree.Each old.Knows) (hgrows : Walk.Grows old new) :
    tree.Each new.Knows := by
  refine hknows.imp fun node hnode id hid => ?_
  obtain ⟨index, hcovers⟩ := hnode id hid
  exact ⟨index, hgrows.widens.covers hcovers⟩

namespace Walk

open NanScript.Tree

theorem knows_visit (walk : Walk) (tree : Tree) (hplain : tree.Each IsPlain) : tree.Each (walk.visit tree).Knows := by
  induction tree using of_children generalizing walk with
  | hstep tree ih =>
    obtain ⟨hroot, hbelow⟩ := each_iff.1 hplain
    refine each_iff.2 ⟨?_, ?_⟩
    · cases tree with
      | var | assign => exact fun _ hid => ⟨walk.next, covers_record hid⟩
      | varDecl _ _ _ _ initial =>
        exact fun _ hid => ⟨walk.next, (grows_visitOption _ initial).widens.covers (covers_record hid)⟩
      | _ => exact nofun
    · intro child hchild
      obtain ⟨between, -, hafter⟩ := exists_visit_child walk hroot hchild
      exact (ih child hchild between (hbelow child hchild)).of_grows hafter

end Walk

section

variable {parameters : List Tree} {body : Tree} {id : Nat}

theorem placed_of_covers {index : Nat} (hcovers : Interval.Covers (functionWalk parameters body).intervals id index) :
    (linearScan (liveIntervals parameters body)).location? id ≠ none := by
  obtain ⟨interval, hinterval, rfl, -, -⟩ := (fits_liveIntervals parameters body).widens.covers hcovers
  obtain ⟨location, -, hlocation⟩ := exists_location? (nodup_liveIntervals parameters body) hinterval
  rw [hlocation]
  exact Option.some_ne_none location

/-- A local that the body mentions has a location. -/
theorem placed_of_mentioned (hplain : body.Each Tree.IsPlain) {node : Tree} (hnode : node ∈ body.nodes)
    (hid : id ∈ node.local?) : (linearScan (liveIntervals parameters body)).location? id ≠ none := by
  obtain ⟨index, hcovers⟩ := Walk.knows_visit (Walk.enter parameters) body hplain node hnode id hid
  exact placed_of_covers hcovers

theorem placed_of_parameter (hid : id ∈ parameterLocals parameters) :
    (linearScan (liveIntervals parameters body)).location? id ≠ none :=
  placed_of_covers ((Walk.grows_visit _ body).widens.covers (Walk.covers_recordParameters {} hid))

end

end NanScript
