import NanScript.Proofs.Grammar.Meaning
import NanScript.Proofs.Nodes
import NanScript.Proofs.Parser.PhraseSound
import NanScript.Proofs.Printing.Text

/-!
# Printing expressions

An expression tree is printed with parentheses where an operand stands on a looser rung of the ladder than its operator asks,
and nowhere else. What is printed is a phrase of the grammar that stands for the tree, and its text has the words of the
phrase.
-/

namespace NanScript

open Grammar NanScript.Tree

/-- An operand where its operator wants it, in parentheses if the ladder asks for them. -/
def Grammar.Phrase.within (rung : Precedence) (phrase : Phrase) : Phrase :=
  if rung ≤ phrase.level then phrase else .group phrase

namespace Tree

attribute [local simp] children

variable {tree : Tree}

mutual

/-- The phrase that an expression is printed as. -/
def phrase : Tree → Phrase
  | int _ value => .integer value.toNat.repr
  | bool _ value => .bool value
  | str _ text => .string (String.ofList (Lexer.quote text.toList))
  | array _ items => .array (phrases items)
  | var _ name _ => .use name
  | assign _ name _ value => .assign (.use name) .plain value.phrase
  | binary _ op left right => .binary op (left.phrase.within op.rung) (right.phrase.within op.rung.next)
  | unary _ op operand => .unary op (operand.phrase.within .unary)
  | ternary _ condition positive negative =>
    .ternary .question (condition.phrase.within .or) (positive.phrase.within .ternary) (negative.phrase.within .ternary)
  | call _ callee arguments => .call (callee.phrase.within .call) (phrases arguments)
  | get _ object name => .get (object.phrase.within .call) name
  | set _ object name value => .set (object.phrase.within .call) name value.phrase
  | indexGet _ object index => .index (object.phrase.within .call) index.phrase
  | indexSet _ object index value => .setIndex (object.phrase.within .call) index.phrase value.phrase
  | new _ className => .new className
  | _ => .null

def phrases : List Tree → List Phrase
  | [] => []
  | tree :: rest => tree.phrase :: phrases rest

end

/-- The text of an expression. -/
def print (tree : Tree) : String := String.ofList tree.phrase.text

/-- A name that can be written and kept. -/
def IsUsable (name : String) : Prop := IsIdentifier name ∧ Nameable name

instance (name : String) : Decidable (IsUsable name) := inferInstanceAs (Decidable (_ ∧ _))

/-- A node of an expression that can be written: integers are not negative and lie below 2⁶³, names can be written, texts are
not too long, and calls have at most 255 arguments. No variable is in sight. -/
def CanPrint : Tree → Prop
  | int _ value => 0 ≤ value ∧ value < 0x8000000000000000
  | str _ text => Nameable text
  | var _ name symbol | assign _ name symbol _ => IsUsable name ∧ symbol = .unresolved
  | call _ _ arguments => arguments.length ≤ 255
  | get _ _ name | set _ _ name _ | new _ name => IsUsable name
  | bool .. | null _ | array .. | binary .. | unary .. | ternary .. | indexGet .. | indexSet .. => True
  | _ => False

/-- The variable that a node reads or assigns to. -/
def mentioned? : Tree → Option String
  | var _ name _ | assign _ name _ _ => some name
  | _ => none

/-- The variables that a tree reads or assigns to. -/
def mentions (tree : Tree) : List String := tree.nodes.filterMap mentioned?

theorem phrases_eq_map (trees : List Tree) : phrases trees = trees.map phrase := by
  induction trees with
  | nil => rfl
  | cons tree rest ih => rw [phrases, ih, List.map_cons]

/-- A phrase stands for a tree wherever no variable of the tree is in sight, and can be read. -/
structure Faithful (tree : Tree) (phrase : Phrase) : Prop where
  legible : phrase.Legible
  grammatical : phrase.Grammatical
  limits : phrase.WithinLimits
  tree (scope : Scope) (hscope : ∀ name ∈ tree.mentions, scope.resolve name = .unresolved) : phrase.tree scope = tree.bare

theorem Faithful.within {phrase : Phrase} (hphrase : Faithful tree phrase) (rung : Precedence) :
    Faithful tree (phrase.within rung) ∧ rung ≤ (phrase.within rung).level := by
  unfold Phrase.within
  split
  · next hrung => exact ⟨hphrase, hrung⟩
  · exact ⟨⟨Phrase.legible_group hphrase.legible, hphrase.grammatical, hphrase.limits, hphrase.tree⟩, rung.le_primary⟩

theorem mem_mentions {name : String} (hname : tree.mentioned? = some name) : name ∈ tree.mentions :=
  List.mem_filterMap.2 ⟨tree, tree.mem_nodes_self, hname⟩

theorem mentions_child {tree child : Tree} (hchild : child ∈ tree.children) : child.mentions ⊆ tree.mentions := by
  intro name hname
  obtain ⟨node, hnode, hvariable⟩ := List.mem_filterMap.1 hname
  exact List.mem_filterMap.2 ⟨node, mem_nodes_of_child hchild hnode, hvariable⟩

theorem faithful_list {trees : List Tree} (htrees : ∀ tree ∈ trees, Faithful tree tree.phrase) :
    (∀ phrase ∈ phrases trees, phrase.Legible) ∧ Phrase.AllGrammatical (phrases trees) ∧
      Phrase.AllWithinLimits (phrases trees) ∧
      ∀ scope : Scope, (∀ tree ∈ trees, ∀ name ∈ tree.mentions, scope.resolve name = .unresolved) →
        Phrase.trees scope (phrases trees) = bareAll trees := by
  simp only [phrases_eq_map, Phrase.allGrammatical_iff, Phrase.allWithinLimits_iff, Phrase.trees_eq_map, bareAll_eq_map,
    List.forall_mem_map, List.map_map, List.map_inj_left]
  exact ⟨fun tree htree => (htrees tree htree).legible, fun tree htree => (htrees tree htree).grammatical,
    fun tree htree => (htrees tree htree).limits, fun scope hscope tree htree => (htrees tree htree).tree scope (hscope tree htree)⟩

/-- What is printed for a tree stands for it if that is so for each of its children. -/
theorem faithful_of_children (tree : Tree) (hnode : tree.CanPrint)
    (hchildren : ∀ child ∈ tree.children, Faithful child child.phrase) : Faithful tree tree.phrase := by
  have hbelow {scope : Scope} (hscope : ∀ name ∈ tree.mentions, scope.resolve name = .unresolved) {child : Tree}
      (hchild : child ∈ tree.children) : ∀ name ∈ child.mentions, scope.resolve name = .unresolved :=
    fun name hname => hscope name (mentions_child hchild hname)
  cases tree with
  | int note value =>
    obtain ⟨hlow, hhigh⟩ := hnode
    have hvalue := Literal.integerValue_repr value.toNat
    refine ⟨Phrase.legible_integer _, trivial, ?_, fun scope _ => ?_⟩
    · show integerValue _ < _
      rw [hvalue]
      omega
    · show int _ (integerValue _ : Int) = .int _ value
      rw [hvalue, Int.toNat_of_nonneg hlow]
  | bool note value => exact ⟨Phrase.legible_bool value, trivial, trivial, fun scope _ => rfl⟩
  | null note => exact ⟨Phrase.legible_null, trivial, trivial, fun scope _ => rfl⟩
  | str note text =>
    have htext := Literal.unescape_quote text
    refine ⟨Phrase.legible_string text, trivial, ?_, fun scope _ => ?_⟩
    · show Nameable (Literal.unescape _)
      rwa [htext]
    · show str _ (Literal.unescape _) = .str _ text
      rw [htext]
  | array note items =>
    obtain ⟨hlegible, hgrammatical, hlimits, htrees⟩ := faithful_list hchildren
    refine ⟨Phrase.legible_array hlegible, hgrammatical, hlimits, fun scope hscope => ?_⟩
    exact congrArg (array .blank) (htrees scope fun item hitem => hbelow hscope hitem)
  | var note name symbol =>
    obtain ⟨⟨hname, hnameable⟩, rfl⟩ := hnode
    refine ⟨Phrase.legible_use hname, trivial, hnameable, fun scope hscope => ?_⟩
    show var _ name (scope.resolve name) = _
    rw [hscope name (mem_mentions rfl)]
    rfl
  | assign note name symbol value =>
    obtain ⟨⟨hname, hnameable⟩, rfl⟩ := hnode
    have hvalue := hchildren value (by simp)
    refine ⟨Phrase.legible_assign .plain (Phrase.legible_use hname) hvalue.legible, ⟨rfl, hvalue.grammatical⟩,
      ⟨hnameable, hvalue.limits⟩, fun scope hscope => ?_⟩
    show assign _ name (scope.resolve name) (value.phrase.tree scope) = _
    rw [hscope name (mem_mentions rfl), hvalue.tree scope (hbelow hscope (by simp))]
    rfl
  | binary note op left right =>
    obtain ⟨hleft, hrung⟩ := (hchildren left (by simp)).within op.rung
    obtain ⟨hright, hrung'⟩ := (hchildren right (by simp)).within op.rung.next
    refine ⟨Phrase.legible_binary op hleft.legible hright.legible, ⟨⟨hrung, hleft.grammatical⟩, hrung', hright.grammatical⟩,
      ⟨hleft.limits, hright.limits⟩, fun scope hscope => ?_⟩
    show binary _ _ _ _ = _
    rw [hleft.tree scope (hbelow hscope (by simp)), hright.tree scope (hbelow hscope (by simp))]
    rfl
  | unary note op operand =>
    obtain ⟨hoperand, hrung⟩ := (hchildren operand (by simp)).within .unary
    refine ⟨Phrase.legible_unary op hoperand.legible, ⟨hrung, hoperand.grammatical⟩, hoperand.limits, fun scope hscope => ?_⟩
    exact congrArg (unary .blank op) (hoperand.tree scope (hbelow hscope (by simp)))
  | ternary note condition positive negative =>
    obtain ⟨hcondition, hrung⟩ := (hchildren condition (by simp)).within .or
    obtain ⟨hpositive, hrung'⟩ := (hchildren positive (by simp)).within .ternary
    obtain ⟨hnegative, hrung''⟩ := (hchildren negative (by simp)).within .ternary
    refine ⟨Phrase.legible_ternary .question hcondition.legible hpositive.legible hnegative.legible,
      ⟨⟨hrung, hcondition.grammatical⟩, ⟨hrung', hpositive.grammatical⟩, hrung'', hnegative.grammatical⟩,
      ⟨hcondition.limits, hpositive.limits, hnegative.limits⟩, fun scope hscope => ?_⟩
    show ternary _ _ _ _ = _
    rw [hcondition.tree scope (hbelow hscope (by simp)), hpositive.tree scope (hbelow hscope (by simp)),
      hnegative.tree scope (hbelow hscope (by simp))]
    rfl
  | call note callee arguments =>
    obtain ⟨hcallee, hrung⟩ := (hchildren callee (by simp)).within .call
    have harguments : ∀ argument ∈ arguments, argument ∈ (call note callee arguments).children := fun _ =>
      List.mem_cons_of_mem _
    obtain ⟨hlegible, hgrammatical, hlimits, htrees⟩ := faithful_list fun argument hargument =>
      hchildren argument (harguments argument hargument)
    refine ⟨Phrase.legible_call hcallee.legible hlegible, ⟨⟨hrung, hcallee.grammatical⟩, hgrammatical⟩,
      ⟨hcallee.limits, ?_, hlimits⟩, fun scope hscope => ?_⟩
    · rw [phrases_eq_map, List.length_map]
      exact hnode
    · show call _ _ _ = _
      rw [hcallee.tree scope (hbelow hscope (by simp)),
        htrees scope fun argument hargument => hbelow hscope (harguments argument hargument)]
      rfl
  | get note object name =>
    obtain ⟨hobject, hrung⟩ := (hchildren object (by simp)).within .call
    refine ⟨Phrase.legible_get hobject.legible hnode.1, ⟨hrung, hobject.grammatical⟩, ⟨hobject.limits, hnode.2⟩,
      fun scope hscope => ?_⟩
    exact congrArg (get .blank · name) (hobject.tree scope (hbelow hscope (by simp)))
  | set note object name value =>
    obtain ⟨hobject, hrung⟩ := (hchildren object (by simp)).within .call
    have hvalue := hchildren value (by simp)
    refine ⟨Phrase.legible_set hobject.legible hnode.1 hvalue.legible, ⟨⟨hrung, hobject.grammatical⟩, hvalue.grammatical⟩,
      ⟨hobject.limits, hnode.2, hvalue.limits⟩, fun scope hscope => ?_⟩
    show set _ _ _ _ = _
    rw [hobject.tree scope (hbelow hscope (by simp)), hvalue.tree scope (hbelow hscope (by simp))]
    rfl
  | indexGet note object index =>
    obtain ⟨hobject, hrung⟩ := (hchildren object (by simp)).within .call
    have hindex := hchildren index (by simp)
    refine ⟨Phrase.legible_index hobject.legible hindex.legible, ⟨⟨hrung, hobject.grammatical⟩, hindex.grammatical⟩,
      ⟨hobject.limits, hindex.limits⟩, fun scope hscope => ?_⟩
    show indexGet _ _ _ = _
    rw [hobject.tree scope (hbelow hscope (by simp)), hindex.tree scope (hbelow hscope (by simp))]
    rfl
  | indexSet note object index value =>
    obtain ⟨hobject, hrung⟩ := (hchildren object (by simp)).within .call
    have hindex := hchildren index (by simp)
    have hvalue := hchildren value (by simp)
    refine ⟨Phrase.legible_setIndex hobject.legible hindex.legible hvalue.legible,
      ⟨⟨hrung, hobject.grammatical⟩, hindex.grammatical, hvalue.grammatical⟩,
      ⟨hobject.limits, hindex.limits, hvalue.limits⟩, fun scope hscope => ?_⟩
    show indexSet _ _ _ _ = _
    rw [hobject.tree scope (hbelow hscope (by simp)), hindex.tree scope (hbelow hscope (by simp)),
      hvalue.tree scope (hbelow hscope (by simp))]
    rfl
  | new note className => exact ⟨Phrase.legible_new hnode.1, trivial, hnode.2, fun scope _ => rfl⟩
  | float | varDecl | block | ifElse | whileLoop | ret | breakLoop | continueLoop | funcDecl | classDecl => exact hnode.elim

theorem faithful (hprintable : tree.Each CanPrint) : Faithful tree tree.phrase := by
  induction tree using of_children with
  | hstep tree ih =>
    obtain ⟨hnode, hchildren⟩ := each_iff.1 hprintable
    exact faithful_of_children tree hnode fun child hchild => ih child hchild (hchildren child hchild)

end Tree

end NanScript
