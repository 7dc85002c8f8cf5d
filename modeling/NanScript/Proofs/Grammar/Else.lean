import NanScript.Proofs.Grammar

/-!
# To which conditional an `else` belongs

Nested conditionals can share the words of one text: in `if (a) if (b) x; else y;` the `else` can belong to either
conditional. A statement is settled if every `else` in it belongs to the nearest conditional that can have it. Main
statement: every statement has the words of a settled one, and what holds of the one holds of the other.
-/

namespace NanScript.Grammar.Statement

variable {inLoop : Bool}

mutual

/-- Whether an `else` behind the statement would become a part of it. -/
def endsOpen : Statement → Bool
  | ifElse _ _ negative => elseEndsOpen negative
  | whileLoop _ body => body.endsOpen
  | forLoop _ _ _ body => body.endsOpen
  | _ => false

def elseEndsOpen : Option Statement → Bool
  | none => true
  | some statement => statement.endsOpen

end

mutual

/-- In front of an `else` there is nothing that would have taken it. -/
def Settled : Statement → Prop
  | ifElse _ positive negative =>
    positive.Settled ∧ (negative.isSome → positive.endsOpen = false) ∧ ElseSettled negative
  | whileLoop _ body => body.Settled
  | forLoop _ _ _ body => body.Settled
  | block members => AllSettled members
  | _ => True

def ElseSettled : Option Statement → Prop
  | none => True
  | some statement => statement.Settled

def AllSettled : List Statement → Prop
  | [] => True
  | statement :: rest => statement.Settled ∧ AllSettled rest

end

/-- `new` is settled. It is `old` with the `else` of `negative` in it, if there is one, and meets every condition that both meet. -/
structure Settles (negative : Option Statement) (new old : Statement) : Prop where
  settled : new.Settled
  words : new.words = old.words ++ elseWords negative
  declared? : new.declared? = old.declared?
  plain : old.IsPlain → new.IsPlain
  grammatical : old.Grammatical → ElseGrammatical negative → new.Grammatical
  admissible : ∀ {inLoop}, old.Admissible inLoop → ElseAdmissible inLoop negative → new.Admissible inLoop

/-! ### Jumps -/

mutual

/-- What may stand outside of a loop may stand in one. -/
theorem Admissible.inLoop : (statement : Statement) → statement.Admissible inLoop → statement.Admissible true
  | expression _, h => h
  | declaration _, h => h
  | ifElse _ positive negative, ⟨hcondition, hpositive, hnegative⟩ =>
    ⟨hcondition, Admissible.inLoop positive hpositive, ElseAdmissible.inLoop negative hnegative⟩
  | whileLoop _ _, h => h
  | forLoop _ _ _ _, h => h
  | ret _, h => h
  | breakLoop, _ => rfl
  | continueLoop, _ => rfl
  | block members, ⟨hnodup, hmembers⟩ => ⟨hnodup, AllAdmissible.inLoop members hmembers⟩

theorem ElseAdmissible.inLoop :
    (statement : Option Statement) → ElseAdmissible inLoop statement → ElseAdmissible true statement
  | none, _ => trivial
  | some statement, h => Admissible.inLoop statement h

theorem AllAdmissible.inLoop :
    (statements : List Statement) → AllAdmissible inLoop statements → AllAdmissible true statements
  | [], _ => trivial
  | statement :: rest, ⟨hstatement, hrest⟩ => ⟨Admissible.inLoop statement hstatement, AllAdmissible.inLoop rest hrest⟩

end

/-! ### Inside of statements -/

section

variable {negative : Option Statement} {old new : Statement}

theorem Settles.refl (hold : old.Settled) : Settles none old old :=
  ⟨hold, (List.append_nil _).symm, rfl, id, fun h _ => h, fun h _ => h⟩

theorem Settles.ifElse (condition : Phrase) (hnew : Settles negative new old) :
    Settles negative (.ifElse condition new none) (.ifElse condition old none) := by
  refine ⟨⟨hnew.settled, by simp, trivial⟩, ?_, rfl, id, ?_, ?_⟩
  · simp [elseWords, hnew.words]
  · rintro ⟨hcondition, ⟨hplain, hpositive⟩, -⟩ hnegative
    exact ⟨hcondition, ⟨hnew.plain hplain, hnew.grammatical hpositive hnegative⟩, trivial⟩
  · rintro _ ⟨hcondition, hpositive, -⟩ hnegative
    exact ⟨hcondition, hnew.admissible hpositive hnegative, trivial⟩

theorem Settles.withElse (condition : Phrase) {other new' : Statement} (hnew : Settles none new old) (hclosed : new.endsOpen = false)
    (hnew' : Settles negative new' other) :
    Settles negative (.ifElse condition new (some new')) (.ifElse condition old (some other)) := by
  refine ⟨⟨hnew.settled, fun _ => hclosed, hnew'.settled⟩, ?_, rfl, id, ?_, ?_⟩
  · simp [elseWords, hnew.words, hnew'.words]
  · rintro ⟨hcondition, ⟨hplain, hpositive⟩, hplain', hother⟩ hnegative
    exact ⟨hcondition, ⟨hnew.plain hplain, hnew.grammatical hpositive trivial⟩, hnew'.plain hplain',
      hnew'.grammatical hother hnegative⟩
  · rintro _ ⟨hcondition, hpositive, hother⟩ hnegative
    exact ⟨hcondition, hnew.admissible hpositive trivial, hnew'.admissible hother hnegative⟩

theorem Settles.whileLoop (condition : Phrase) (hnew : Settles negative new old) :
    Settles negative (.whileLoop condition new) (.whileLoop condition old) := by
  refine ⟨hnew.settled, by simp [hnew.words], rfl, id, ?_, ?_⟩
  · rintro ⟨hcondition, hplain, hbody⟩ hnegative
    exact ⟨hcondition, hnew.plain hplain, hnew.grammatical hbody hnegative⟩
  · rintro _ ⟨hcondition, hbody⟩ hnegative
    exact ⟨hcondition, hnew.admissible hbody hnegative.inLoop⟩

theorem Settles.forLoop (initial : ForInitial) (condition step : Option Phrase) (hnew : Settles negative new old) :
    Settles negative (.forLoop initial condition step new) (.forLoop initial condition step old) := by
  refine ⟨hnew.settled, by simp [hnew.words], rfl, id, ?_, ?_⟩
  · rintro ⟨hinitial, hcondition, hstep, hplain, hbody⟩ hnegative
    exact ⟨hinitial, hcondition, hstep, hnew.plain hplain, hnew.grammatical hbody hnegative⟩
  · rintro _ ⟨hinitial, hcondition, hstep, hbody⟩ hnegative
    exact ⟨hinitial, hcondition, hstep, hnew.admissible hbody hnegative.inLoop⟩

end

/-! ### Settling -/

/-- The `else` goes to the last open conditional of the statement. -/
theorem exists_attached {negative : Statement} (hnegative : negative.Settled) :
    (old : Statement) → old.Settled → old.endsOpen = true → ∃ new, Settles (some negative) new old
  | ifElse condition positive none, ⟨hpositive, _, _⟩, _ => by
    cases hopen : positive.endsOpen with
    | false =>
      refine ⟨ifElse condition positive (some negative), ⟨hpositive, fun _ => hopen, hnegative⟩, ?_, rfl, id, ?_, ?_⟩
      · simp [words, elseWords]
      · exact fun ⟨hcondition, hpositive, _⟩ hnegative => ⟨hcondition, hpositive, hnegative⟩
      · exact fun ⟨hcondition, hpositive, _⟩ hnegative => ⟨hcondition, hpositive, hnegative⟩
    | true =>
      obtain ⟨new, hnew⟩ := exists_attached hnegative positive hpositive hopen
      exact ⟨_, hnew.ifElse condition⟩
  | ifElse condition positive (some other), ⟨hpositive, hclosed, hother⟩, hopen => by
    obtain ⟨new, hnew⟩ := exists_attached hnegative other hother hopen
    exact ⟨_, .withElse condition (.refl hpositive) (hclosed rfl) hnew⟩
  | whileLoop condition body, hbody, hopen => by
    obtain ⟨new, hnew⟩ := exists_attached hnegative body hbody hopen
    exact ⟨_, hnew.whileLoop condition⟩
  | forLoop initial condition step body, hbody, hopen => by
    obtain ⟨new, hnew⟩ := exists_attached hnegative body hbody hopen
    exact ⟨_, hnew.forLoop initial condition step⟩

/-- Statements that are settled one by one. -/
structure SettlesAll (new old : List Statement) : Prop where
  settled : AllSettled new
  words : allWords new = allWords old
  declared? : new.filterMap declared? = old.filterMap declared?
  grammatical : AllGrammatical old → AllGrammatical new
  admissible : ∀ {inLoop}, AllAdmissible inLoop old → AllAdmissible inLoop new

mutual

theorem exists_settles : (old : Statement) → ∃ new, Settles none new old
  | expression _ | declaration _ | ret _ | breakLoop | continueLoop => ⟨_, .refl trivial⟩
  | ifElse condition positive none => by
    obtain ⟨new, hnew⟩ := exists_settles positive
    exact ⟨_, hnew.ifElse condition⟩
  | ifElse condition positive (some negative) => by
    obtain ⟨new, hnew⟩ := exists_settles positive
    obtain ⟨new', hnew'⟩ := exists_settles negative
    cases hopen : new.endsOpen with
    | false => exact ⟨_, .withElse condition hnew hopen hnew'⟩
    | true =>
      obtain ⟨joined, hjoined⟩ := exists_attached hnew'.settled new hnew.settled hopen
      refine ⟨ifElse condition joined none, ⟨hjoined.settled, by simp, trivial⟩, ?_, rfl, id, ?_, ?_⟩
      · simp [words, elseWords, hjoined.words, hnew.words, hnew'.words]
      · rintro ⟨hcondition, ⟨hplain, hpositive⟩, hplain', hnegative⟩ _
        exact ⟨hcondition, ⟨hjoined.plain (hnew.plain hplain), hjoined.grammatical (hnew.grammatical hpositive trivial)
          ⟨hnew'.plain hplain', hnew'.grammatical hnegative trivial⟩⟩, trivial⟩
      · rintro _ ⟨hcondition, hpositive, hnegative⟩ _
        exact ⟨hcondition, hjoined.admissible (hnew.admissible hpositive trivial) (hnew'.admissible hnegative trivial), trivial⟩
  | whileLoop condition body => by
    obtain ⟨new, hnew⟩ := exists_settles body
    exact ⟨_, hnew.whileLoop condition⟩
  | forLoop initial condition step body => by
    obtain ⟨new, hnew⟩ := exists_settles body
    exact ⟨_, hnew.forLoop initial condition step⟩
  | block members => by
    obtain ⟨new, hnew⟩ := exists_settlesAll members
    refine ⟨block new, hnew.settled, by simp [words, elseWords, hnew.words], rfl, id, fun h _ => hnew.grammatical h, ?_⟩
    exact fun ⟨hnodup, hmembers⟩ _ => ⟨hnew.declared? ▸ hnodup, hnew.admissible hmembers⟩

theorem exists_settlesAll : (old : List Statement) → ∃ new, SettlesAll new old
  | [] => ⟨[], trivial, rfl, rfl, id, id⟩
  | statement :: rest => by
    obtain ⟨new, hnew⟩ := exists_settles statement
    obtain ⟨others, hothers⟩ := exists_settlesAll rest
    refine ⟨new :: others, ⟨hnew.settled, hothers.settled⟩, ?_, ?_, ?_, ?_⟩
    · simp [allWords, elseWords, hnew.words, hothers.words]
    · simp [List.filterMap_cons, hnew.declared?, hothers.declared?]
    · exact fun ⟨hstatement, hrest⟩ => ⟨hnew.grammatical hstatement trivial, hothers.grammatical hrest⟩
    · exact fun ⟨hstatement, hrest⟩ => ⟨hnew.admissible hstatement trivial, hothers.admissible hrest⟩

end

end NanScript.Grammar.Statement
