import NanScript.Proofs.Parser.Input

/-!
# The parser with a log

A monad in which the readers leave lines in a log: for every handler that is called, for every entry into a reader that can come
to itself again, and for every round of a loop. A line says how many words were ahead and what was going on around it. Rounds of a
loop lie in each other, the next in the one before it. What is lifted from the parser leaves no line.

That the log changes nothing else is proved together with what is said of it.
-/

namespace NanScript.Parser

structure Call where
  activity : Activity
  /-- The number of words ahead. -/
  ahead : Nat
  /-- What was going on around, with the number of words that were ahead when it began. -/
  within : List (Activity × Nat)

def Logged (α : Type) : Type := List (Activity × Nat) → State → (α × State) × List Call

namespace Logged

instance : Monad Logged where
  pure result _ state := ((result, state), [])
  bind reader next within state :=
    let first := reader within state
    let second := next first.1.1 within first.1.2
    (second.1, first.2 ++ second.2)

instance : MonadLift Parser Logged where
  monadLift reader _ state := (reader state, [])

instance : Watches Logged where
  enter activity reader within state :=
    let (result, calls) := reader ((activity, state.words.length) :: within) state
    (result, ⟨activity, state.words.length, within⟩ :: calls)
  handle reader within state :=
    let (result, calls) := reader within state
    (result, ⟨.handler, state.words.length, within⟩ :: calls)

/-- A text is read from the beginning, with nothing around. -/
def parse (source : String) : (List Tree × State) × List Call :=
  (program (depthBound (tokens source)) : Logged _) [] (State.initial (tokens source))

end Logged

end NanScript.Parser
