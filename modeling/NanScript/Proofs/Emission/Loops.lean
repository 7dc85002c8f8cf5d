import NanScript.Proofs.Emission.Labels

/-!
# Jumps out of loops

A jump belongs to the innermost loop around it in the source: `break` goes behind that loop and `continue` behind its body.
`Piece.Nested` follows the emitter down from a routine to the code of a tree, and keeps in mind which two places these are.
Main statement: the labels of a routine are in order, and its jumps lead there.
-/

namespace NanScript

open Piece List

/-- The places that the jumps of a loop lead to. -/
structure Exits where
  /-- The code behind the body. -/
  onward : Code
  /-- The code behind the whole loop. -/
  away : Code

namespace Piece

def isPart : Piece → Bool
  | part .. => true
  | lines _ => false

/-- The exits for a part of the code of a tree. A loop has a condition, a body and perhaps a step as its parts, in this order:
for the body the exits are those of the loop, and for all else those of the loop around. -/
def exits (outer : Tree) (around : Option Exits) (front back : List Piece) (behind : Code) : Option Exits :=
  match outer with
  | .whileLoop .. => if front.countP isPart = 1 then some ⟨all back ++ behind, behind⟩ else around
  | _ => around

/-- The code that the emitter made for a site stands in the code of the pieces, with some code behind it. The innermost loop
around the site has these exits. -/
inductive Nested (outline : Outline) (allocation : Allocation) (pieces : List Piece) (behind : Code) :
    Option Exits → Site → Code → Code → Prop
  | part {front back : List Piece} {site : Site} {made : Code} {next : Nat}
      (hpieces : pieces = front ++ .part site made next :: back) :
      Nested outline allocation pieces behind none site made (all back ++ behind)
  | within {around : Option Exits} {outer : Site} {parts front back : List Piece} {last : Nat} {rest : Code} {site : Site}
      {made : Code} {next : Nat} (houter : Nested outline allocation pieces behind around outer (all parts) rest)
      (hshape : outer.Shape outline allocation parts last) (hgiven : Each (Site.Given outline allocation) parts)
      (hparts : parts = front ++ .part site made next :: back) :
      Nested outline allocation pieces behind (exits outer.tree around front back rest) site made (all back ++ rest)

end Piece

/-! ### Labels of the innermost loop -/

namespace Site

variable {outline : Outline} {allocation : Allocation} {loop : Option LoopLabels} {depth number next : Nat}
  {pieces : List Piece} {site : Site}

/-- The emitter is asked for the code with the labels of the same loop. -/
def SameLoop (loop : Option LoopLabels) (site : Site) (_ : Code) (_ : Nat) : Prop := site.loop = loop

theorem AskedFor.sameLoop {trees : List Tree} (hasked : AskedFor loop trees pieces) : Each (SameLoop loop) pieces :=
  hasked.each_part.imp fun _ _ _ hpart => hpart.1

/-- Only a loop changes the labels that jumps go to. -/
theorem Shape.sameLoop (hshape : site.Shape outline allocation pieces next)
    (hother : ∀ note condition body step, site.tree ≠ .whileLoop note condition body step) :
    Each (SameLoop site.loop) pieces := by
  cases hshape with
    simp only [each_lines, each_part, each_append, each_nil, and_true]
  | array hparts | block hparts | varDecl hparts | ret hparts | callDirect _ _ hparts => exact hparts.askedFor.sameLoop
  | callMethod hparts | callValue _ _ hparts => exact ⟨hparts.askedFor.sameLoop, rfl⟩
  | ifElse hparts => exact ⟨rfl, rfl, hparts.sequence.askedFor.sameLoop⟩
  | whileLoop => exact absurd rfl (hother _ _ _ _)
  | assignLocal | assignGlobal | unary | get => exact rfl
  | binary | shortCircuit | set | indexGet => exact ⟨rfl, rfl⟩
  | ternary | indexSet => exact ⟨rfl, rfl, rfl⟩

end Site

/-- The labels are where the exits are. -/
def LoopLabels.Mark (whole : Code) : Option Exits → Option LoopLabels → Prop
  | none, none => True
  | some exits, some labels => (∃ target, exits.onward = .label (.next labels.next) :: target) ∧ exits.onward <:+ whole ∧
      .label (.finish labels.finish) :: exits.away <:+ whole
  | _, _ => False

namespace Piece

variable {front back : List Piece}

theorem exits_of_other {outer : Tree} (hother : ∀ note condition body step, outer ≠ .whileLoop note condition body step)
    {around : Option Exits} {behind : Code} : exits outer around front back behind = around := by
  cases outer with
  | whileLoop => exact absurd rfl (hother _ _ _ _)
  | _ => rfl

theorem loop_part {first second third fourth : Code} {condition body site : Site} {made made' made'' : Code}
    {next next' next'' : Nat} {step : List Piece}
    (hparts : .lines first :: .part condition made next :: .lines second :: .part body made' next' :: .lines third ::
      (step ++ [.lines fourth]) = front ++ .part site made'' next'' :: back) :
    front.countP isPart = 1 ∧ site = body ∧ back = .lines third :: (step ++ [.lines fourth]) ∨
      front.countP isPart ≠ 1 ∧ (site = condition ∨ .part site made'' next'' ∈ step) := by
  match front, hparts with
  | [_], hparts =>
    simp only [cons_append, nil_append, cons.injEq, part.injEq] at hparts
    obtain ⟨rfl, ⟨rfl, -, -⟩, -⟩ := hparts
    exact .inr ⟨Nat.zero_ne_one, .inl rfl⟩
  | [_, _, _], hparts =>
    simp only [cons_append, nil_append, cons.injEq, part.injEq] at hparts
    obtain ⟨rfl, rfl, rfl, ⟨rfl, -, -⟩, hback⟩ := hparts
    exact .inl ⟨rfl, rfl, hback.symm⟩
  | _ :: _ :: _ :: _ :: front, hparts =>
    simp only [cons_append, cons.injEq] at hparts
    obtain ⟨rfl, rfl, rfl, rfl, hrest⟩ := hparts
    refine .inr ⟨by simp [isPart, countP_cons], .inr ?_⟩
    have hmem : part site made'' next'' ∈ .lines third :: (step ++ [.lines fourth]) := by
      rw [hrest]
      exact mem_append_right _ mem_cons_self
    simpa using hmem

end Piece

/-! ### Jumps -/

def Tree.isJump : Tree → Bool
  | breakLoop _ | continueLoop _ => true
  | _ => false

/-- A jump leads to the exits of a loop: `break` away from it, and `continue` to the label behind its body. -/
def Tree.LeadsTo (whole made : Code) (exits : Exits) : Tree → Prop
  | breakLoop _ => ∃ label, made = [.instruction (.jump .always label)] ∧ Code.seek label whole = some exits.away
  | continueLoop _ => ∃ label target, made = [.instruction (.jump .always label)] ∧ exits.onward = .label label :: target ∧
      Code.seek label whole = some target
  | _ => True

namespace Piece.Nested

variable {outline : Outline} {allocation : Allocation} {pieces : List Piece} {behind made back whole : Code}
  {exits : Option Exits} {site : Site} (hnested : Nested outline allocation pieces behind exits site made back)

include hnested

theorem exists_given (hgiven : Each (Site.Given outline allocation) pieces) :
    ∃ next, site.Given outline allocation made next := by
  cases hnested with
  | part hpieces => exact ⟨_, hgiven _ _ _ (hpieces ▸ mem_append_right _ mem_cons_self)⟩
  | within _ _ hgiven hparts => exact ⟨_, hgiven _ _ _ (hparts ▸ mem_append_right _ mem_cons_self)⟩

theorem suffix (hwhole : all pieces ++ behind <:+ whole) : made ++ back <:+ whole := by
  induction hnested with
  | part hpieces =>
    refine IsSuffix.trans ?_ hwhole
    rw [hpieces, all_append, all_part, append_assoc, append_assoc]
    exact suffix_append _ _
  | within _ _ _ hparts ih =>
    refine IsSuffix.trans ?_ ih
    rw [hparts, all_append, all_part, append_assoc, append_assoc]
    exact suffix_append _ _

theorem mark (hwhole : all pieces ++ behind <:+ whole) (hloop : Each (Site.SameLoop none) pieces) :
    LoopLabels.Mark whole exits site.loop := by
  induction hnested with
  | part hpieces =>
    have hnone : Site.SameLoop none _ _ _ := hloop _ _ _ (hpieces ▸ mem_append_right _ mem_cons_self)
    rw [show _ = none from hnone]
    trivial
  | @within around outer parts front back last rest site made next houter hshape hgiven hparts ih =>
    have hsuffix := (Nested.within houter hshape hgiven hparts).suffix hwhole
    by_cases hother : ∀ note condition body step, outer.tree ≠ .whileLoop note condition body step
    · have hsame : site.loop = outer.loop := hshape.sameLoop hother _ _ _ (hparts ▸ mem_append_right _ mem_cons_self)
      rw [exits_of_other hother, hsame]
      exact ih
    · simp only [not_forall, not_not] at hother
      obtain ⟨note, condition, body, step, htree⟩ := hother
      obtain ⟨loop, depth, tree, number⟩ := outer
      subst htree
      cases hshape with
      | @whileLoop _ _ _ _ _ _ _ _ _ steps _ _ _ hstep =>
        rcases loop_part hparts with ⟨hcount, rfl, rfl⟩ | ⟨hcount, hpart⟩
        · rw [Piece.exits, if_pos hcount]
          refine ⟨⟨_, rfl⟩, (suffix_append _ _).trans hsuffix, IsSuffix.trans ?_ (houter.suffix hwhole)⟩
          simp only [all_lines, all_part, all_append, all_nil, append_nil, ← append_assoc]
          rw [append_assoc]
          exact suffix_append _ _
        · have hsame : site.loop = loop := by
            rcases hpart with rfl | hpart
            · rfl
            · exact hstep.sequence.askedFor.sameLoop _ _ _ hpart
          rw [Piece.exits, if_neg hcount, hsame]
          exact ih

theorem leadsTo (hjump : site.tree.isJump = true) (hwhole : all pieces ++ behind <:+ whole)
    (hunique : ∀ key, whole.uses key ≤ 1) (hloop : Each (Site.SameLoop none) pieces)
    (hgiven : Each (Site.Given outline allocation) pieces) : ∃ exit, exits = some exit ∧ site.tree.LeadsTo whole made exit := by
  have hmark := hnested.mark hwhole hloop
  obtain ⟨next, hgiven⟩ := hnested.exists_given hgiven
  obtain ⟨hshape, -⟩ := hgiven.toMade
  cases hshape with
    try contradiction
  | @breakLoop _ _ _ _ labels hlabels =>
    subst hlabels
    cases exits with
    | none => exact hmark.elim
    | some exit => exact ⟨exit, rfl, _, rfl, Code.seek_of_suffix hunique hmark.2.2⟩
  | @continueLoop _ _ _ _ labels hlabels =>
    subst hlabels
    cases exits with
    | none => exact hmark.elim
    | some exit =>
      obtain ⟨⟨target, htarget⟩, hsuffix, -⟩ := hmark
      exact ⟨exit, rfl, _, target, rfl, htarget, Code.seek_of_suffix hunique (htarget ▸ hsuffix)⟩

end Piece.Nested

variable {next : Nat}

/-- Every jump of a tree has a place in the code. -/
theorem Site.Given.nested {outline : Outline} {allocation : Allocation} {pieces : List Piece} {behind made : Code}
    {site : Site} (hgiven : site.Given outline allocation made next) :
    ∀ exits back, Nested outline allocation pieces behind exits site made back → site.tree.Each Tree.IsPlain →
      site.tree.Each fun node => node.isJump = true → ∃ exits site made back,
        Nested outline allocation pieces behind exits site made back ∧ site.tree = node := by
  refine of_parts hgiven fun site parts next hshape hgiven ih exits back hnested hplain => ?_
  refine hshape.each hplain (fun part made next hpart hplain => ?_) (fun _ => ⟨_, _, _, _, hnested, rfl⟩)
    (fun _ _ _ => nofun) ?_
  · obtain ⟨front, back, hsplit⟩ := append_of_mem hpart
    exact ih part made next hpart _ _ (.within hnested hshape hgiven hsplit) hplain
  · intro _ callee _ name _ hdirect hjump
    obtain ⟨_, rfl, -⟩ := direct_eq_some hdirect
    contradiction

/-! ### Routines -/

variable {program : List Tree} {parts : List Piece} {number : Nat}

theorem Site.Initials.sameLoop (hinitials : Initials program number parts next) : Each (SameLoop none) parts := by
  induction hinitials with
  | nil => simp
  | global hinitial _ ih =>
    simp only [each_append, each_lines]
    exact ⟨hinitial.askedFor.sameLoop, ih⟩
  | other _ _ ih => exact ih

theorem Plan.IsRoutine.sameLoop {outline : Outline} {plan : Plan} (hroutine : plan.IsRoutine program outline) :
    Each (Site.SameLoop none) plan.parts := by
  cases hroutine with
  | entry hinitials => exact hinitials.sameLoop
  | function => exact each_part.2 ⟨rfl, each_nil⟩

/-- The labels of a routine are in order. Each is defined once, also by its name in the text, and every jump and every address of
a text refers to one of them. No path comes to a text. Wherever in the source a `break` or a `continue` is, it has a place in
the code, it is in a loop, and it jumps behind the innermost loop, or behind its body. -/
theorem labels_in_order {source text : String} (hsilent : (parse source).errors = [])
    (hgenerate : generate (parse source).program = .ok text) :
    ∃ assembly, assemble (parse source).program = .ok assembly ∧ text = assembly.render ∧
      ∀ routine ∈ assembly.code.routines, (routine.marks.map Label.render).Nodup ∧
        (∀ line ∈ routine, ∀ label ∈ line.target?, label ∈ routine.marks) ∧
        (∀ start number bytes rest p, ¬ Point.Reached routine start ⟨.text number bytes :: rest, p⟩) ∧
        ∃ (outline : Outline) (plan : Plan), Outline.ofProgram (parse source).program = .ok outline ∧
          plan.IsRoutine (parse source).program outline ∧ routine = plan.code ∧
          (∀ exits site made back, Piece.Nested outline plan.allocation plan.parts plan.back exits site made back →
            site.tree.isJump = true → ∃ exit, exits = some exit ∧ site.tree.LeadsTo routine made exit) ∧
          ∀ site made next, .part site made next ∈ plan.parts → ∀ node ∈ site.tree.nodes, node.isJump = true →
            ∃ exits site made back, Piece.Nested outline plan.allocation plan.parts plan.back exits site made back ∧
              site.tree = node := by
  obtain ⟨assembly, hassemble, htext⟩ := generate_eq_ok_iff.1 hgenerate
  have hclosed := fun tree htree => @isClosed_of_parse source hsilent tree htree
  have hprogram := isDeclaration_of_parse source
  obtain ⟨outline, plans, hplanned, hsettled, hroutines⟩ := routines_eq_of_assemble hassemble hprogram
  refine ⟨assembly, hassemble, htext.symm, fun routine hroutine => ?_⟩
  rw [hroutines] at hroutine
  obtain ⟨plan, hmem, rfl⟩ := List.mem_map.1 hroutine
  have hplan := hplanned.routine plan hmem
  refine ⟨Code.nodup_names hplan.unique, fun line hline label => hplan.target_mem_marks (hsettled plan hmem) hclosed hline, ?_,
    outline, plan, hplanned.outlined, hplan, rfl, ?_, ?_⟩
  · intro start number bytes rest p hreached
    exact (hreached.not_text hplan.sheltered).2 _ _ _ rfl
  · intro exits site made back hnested hjump
    exact hnested.leadsTo hjump (List.suffix_append _ _) hplan.unique hplan.sameLoop (hplanned.given plan hmem)
  · intro site made next hpart
    obtain ⟨front, back, hsplit⟩ := append_of_mem hpart
    have hplain := (hplan.isNested hprogram site made next hpart).1.imp fun _ => Tree.IsNested.isPlain
    exact (hplanned.given plan hmem site made next hpart).nested _ _ (.part hsplit) hplain

private def loopSource : String :=
  "func f(a) \x7b while (a) \x7b while (a.b) \x7b if (a) continue; break; \x7d break; \x7d return \"s\"; \x7d"

private def loopTargets : List Label :=
  [.safe 0, .safe 4, .finish 3, .safe 8, .textEnd 9, .text 10, .finish 7, .otherwise 11, .next 6, .finish 12, .finish 7, .again 5,
    .finish 3, .again 1, .textEnd 13, .text 14, .ret]

/-- A loop in a loop, each with jumps of its own. -/
theorem labels_in_order_loops :
    (parse loopSource).errors = [] ∧ ∃ assembly, assemble (parse loopSource).program = .ok assembly ∧
      (assembly.code.routines.map fun routine => routine.filterMap Line.target?) = [[], loopTargets] ∧
      ∀ routine ∈ assembly.code.routines, (routine.marks.map Label.render).Nodup ∧
        ∀ line ∈ routine, ∀ label ∈ line.target?, label ∈ routine.marks := by
  have hsilent : (parse loopSource).errors = [] := by decide +kernel
  have htargets : checked (parse loopSource).program (fun assembly =>
      (assembly.code.routines.map fun routine => routine.filterMap Line.target?) == [[], loopTargets]) = true := by decide +kernel
  obtain ⟨assembly, hassemble, htargets⟩ := exists_of_checked htargets
  have hgenerate : generate (parse loopSource).program = .ok assembly.render := generate_eq_ok_iff.2 ⟨assembly, hassemble, rfl⟩
  obtain ⟨other, hother, -, hroutines⟩ := labels_in_order hsilent hgenerate
  obtain rfl := Except.ok.inj (hother.symm.trans hassemble)
  exact ⟨hsilent, other, hother, beq_iff_eq.1 htargets, fun routine hroutine =>
    ⟨(hroutines routine hroutine).1, (hroutines routine hroutine).2.1⟩⟩

end NanScript
