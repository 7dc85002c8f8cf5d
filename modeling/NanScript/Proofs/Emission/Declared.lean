import NanScript.Proofs.Emission.Faults
import NanScript.Proofs.Emission.Parts
import NanScript.Proofs.Emission.Routine
import NanScript.Proofs.Parser.Recovered

/-!
# What code presupposes

If there is code for a tree, then each class that it makes objects of is declared, and so is each variable that it assigns to.
-/

namespace NanScript

namespace Tree

/-- A class of which an object is made is declared, and a variable that is assigned to is local or declared at the top level. -/
def Declared (outline : Outline) : Tree → Prop
  | new _ name => (outline.methods? name).isSome = true
  | assign _ name symbol _ => symbol.local? = none → (symbol.isGlobal || outline.isGlobal name) = true
  | _ => True

theorem IsNested.isPlain {globals : List String} {tree : Tree} (htree : tree.IsNested globals) : tree.IsPlain := by
  cases tree with
  | funcDecl | classDecl => exact htree
  | _ => trivial

theorem IsTop.isNested {globals : List String} {tree : Tree} (htree : tree.IsTop globals) : tree.IsNested globals := by
  cases tree with
  | var | assign => exact htree.2
  | varDecl | funcDecl | classDecl => exact htree.elim
  | _ => trivial

end Tree

namespace Site

open NanScript.Tree

variable {next : Nat} {pieces : List Piece} {outline : Outline} {allocation : Allocation}

theorem Shape.declared {site : Site} (hshape : site.Shape outline allocation pieces next) : site.tree.Declared outline := by
  cases hshape with
  | new hclass => simp [Declared, hclass]
  | assignLocal => exact fun hlocal => (nomatch hlocal)
  | assignGlobal _ hglobal => exact fun _ => hglobal
  | _ => trivial

end Site

end NanScript
