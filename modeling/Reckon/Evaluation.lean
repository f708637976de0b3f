import Reckon.Grammar

/-!
# Evaluation

One expression has to reach up to the end of the input or to a newline.
-/

namespace Reckon

open Production

/-- Levels an expression may nest if nothing else is asked for. -/
def defaultLimit : Nat := 256

namespace Grammar

/-- Evaluates one expression from a reader that has its first symbol in hand. -/
def whole (g : Grammar) : Production (Value × Tally) := do
  let value ← g.expression
  requireEnd
  let counts ← tally
  note fun _ => .result g.name value counts
  return (value, counts)

/-- Evaluates one expression from a reader that has read nothing yet. -/
def evaluation (g : Grammar) : Production (Value × Tally) := do
  prime
  g.whole

/-- The outcome for a source, and the reader as the evaluation leaves it. -/
def evaluate (g : Grammar) (limit : Nat) (source : Source) :
    Except Failure (Value × Tally) × Reader :=
  g.evaluation.run (.fresh limit source)

end Grammar

end Reckon
