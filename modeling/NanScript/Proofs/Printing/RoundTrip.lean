import NanScript.Proofs.Parser.ProgramComplete
import NanScript.Proofs.Parser.Recovered
import NanScript.Proofs.Printing.Printer

/-!
# What is printed is read back

The text of an expression, as the initial value of a variable, is read without a report, and the tree that comes of it is the
one that was printed. Only the numbers and the lines of the nodes are new. In the arena the nodes stand in their flat forms, and
the items of a list and the arguments of a call are chained, as many as the node counts.
-/

namespace NanScript

open Grammar

namespace Tree

variable {tree : Tree} {name : String}

/-- A variable with an expression as its initial value. -/
def declared (name : String) (tree : Tree) : Variable := ⟨false, name, some tree.phrase⟩

theorem words_declared (hname : IsIdentifier name) (hlegible : tree.phrase.Legible) :
    (tokens ("var " ++ name ++ " = " ++ tree.print ++ ";")).map Token.word = (declared name tree).words ++ [sign .eof] := by
  have htext : ("var " ++ name ++ " = " ++ tree.print ++ ";").toList = TokenKind.kwVar.display.toList ++ ' ' ::
      (name.toList ++ ' ' :: '=' :: ' ' :: (tree.phrase.text ++ [';'])) := by
    simp [print, TokenKind.display]
  rw [tokens_eq]
  change Lexer.words ("var " ++ name ++ " = " ++ tree.print ++ ";").toList = _
  rw [htext, Lexer.words_keyword (by decide) (by rintro _ ⟨⟩; decide), Lexer.words_blank,
    Lexer.words_identifier hname (by rintro _ ⟨⟩; decide), Lexer.words_blank, Phrase.words_eq,
    hlegible.words (Lexer.ends_cons (by decide) _), Phrase.words_semicolon, Lexer.words_nil]
  simp [declared, Variable.words, Variable.tailWords, optionWords]

/-- No other name is in sight where a variable is the first of a text. -/
theorem resolve_declare_initial {other : String} (hother : other ≠ name) :
    (Scope.initial.declare name).resolve other = .unresolved := by
  simp [Scope.resolve, Scope.find?, Scope.declare, Scope.initial, Ne.symm hother]

theorem eq_varDecl_of_bare {symbol : Symbol} {managed : Bool} {initial : Tree}
    (hbare : tree.bare = .varDecl .blank name symbol managed (some initial)) :
    ∃ note value, tree = .varDecl note name symbol managed (some value) ∧ value.bare = initial := by
  cases tree with
  | varDecl note name' symbol' managed' initial' =>
    cases initial' with
    | none => simp [bare] at hbare
    | some value =>
      simp only [bare, bareOption_eq_map, Option.map_some, varDecl.injEq, Option.some.injEq, true_and] at hbare
      obtain ⟨rfl, rfl, rfl, rfl⟩ := hbare
      exact ⟨note, value, rfl, rfl⟩
  | _ => simp [bare] at hbare

end Tree

/-- An expression tree is printed with the parentheses that the ladder of operators asks for; as the initial value of a variable
that it does not mention it is read without a report, and what is read is the same tree, up to the numbers and the lines of its
nodes. Each node stands in the arena as it is, and its list of children, if it has one, is chained and counted. -/
theorem parse_print {tree : Tree} {name : String} (hprintable : tree.Each Tree.CanPrint) (hname : Tree.IsUsable name)
    (hfresh : name ∉ tree.mentions) :
    (parse ("var " ++ name ++ " = " ++ tree.print ++ ";")).errors = [] ∧
      ∃ note initial, (parse ("var " ++ name ++ " = " ++ tree.print ++ ";")).program =
          [.varDecl note name .global false (some initial)] ∧
        initial.bare = tree.bare ∧ initial.Each (parse ("var " ++ name ++ " = " ++ tree.print ++ ";")).arena.Holds := by
  have hfaithful := Tree.faithful hprintable
  have hwords := Tree.words_declared hname.1 hfaithful.legible
  have hgrammatical : (Tree.declared name tree).Grammatical := by
    simpa [Tree.declared, Variable.Grammatical] using hfaithful.grammatical
  have hbuilt : ((Tree.declared name tree).build .initial).1 = .varDecl .blank name .global false (some tree.bare) := by
    have hresolve : ∀ other ∈ tree.mentions, (Scope.initial.declare name).resolve other = .unresolved := fun other hother =>
      Tree.resolve_declare_initial fun hsame => hfresh (hsame ▸ hother)
    rw [← hfaithful.tree _ hresolve]
    rfl
  generalize "var " ++ name ++ " = " ++ tree.print ++ ";" = source at hwords ⊢
  have hfine : ∀ token ∈ tokens source, token.kind ≠ .error := by
    have hall : Fine (fun _ => True) ((Tree.declared name tree).words ++ [sign .eof]) :=
      fine_append.2 ⟨(Variable.fine_words .initial hgrammatical).2 fun _ _ _ _ _ => trivial, by simp⟩
    exact fun token htoken => (hall token.word (hwords ▸ List.mem_map_of_mem htoken)).1
  obtain ⟨root, after, ⟨-, hrun, hclean⟩, hroot⟩ := Parser.program_variable (tokens_framed source) hfine hwords hgrammatical hname.2
    (by simpa [Tree.declared] using hfaithful.limits)
  have hprogram : (parse source).program = [root] := congrArg Prod.fst hrun
  have herrors : (parse source).errors = after.errors.toList := congrArg (fun ran => ran.2.errors.toList) hrun
  obtain ⟨note, initial, rfl, hinitial⟩ := Tree.eq_varDecl_of_bare (hroot.trans hbuilt)
  refine ⟨by rw [herrors, hclean.silent], note, initial, hprogram, hinitial, ?_⟩
  have hstored := stored_parse source _ (hprogram ▸ List.mem_singleton_self _)
  exact (Tree.each_iff.1 hstored).2 initial (by simp [Tree.children])

/-- A call of a conditional with an assignment among its arguments. -/
theorem parse_print_call :
    let tree : Tree := .call .blank (.ternary .blank (.var .blank "a" .unresolved) (.var .blank "b" .unresolved) (.null .blank))
      [.assign .blank "a" .unresolved (.binary .blank .mul (.binary .blank .add (.int .blank 1) (.int .blank 2)) (.int .blank 3)),
        .array .blank [.get .blank (.new .blank "A") "x", .str .blank "\""]]
    tree.print = "(a ? b : null)(a = (1 + 2) * 3, [new A().x, \"\\\"\"])" ∧
      (parse ("var " ++ "v" ++ " = " ++ tree.print ++ ";")).errors = [] ∧
        ∃ note initial, (parse ("var " ++ "v" ++ " = " ++ tree.print ++ ";")).program =
            [.varDecl note "v" .global false (some initial)] ∧
          initial.bare = tree.bare ∧ initial.Each (parse ("var " ++ "v" ++ " = " ++ tree.print ++ ";")).arena.Holds := by
  refine ⟨by decide, parse_print ?_ (by decide) (by decide)⟩
  have husable : ∀ name ∈ ["a", "b", "A", "x"], Tree.IsUsable name := by decide
  have htext : Nameable "\"" := by decide
  simp [Tree.Each, Tree.nodes, Tree.inner, Tree.allNodes, Tree.CanPrint, husable, htext]

end NanScript
