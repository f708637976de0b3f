import Reckon.Grammar
import Reckon.Value.Power

/-!
# The ternary grammar

    expression := operand (('+' | '-') operand | '*' expression)*
    operand    := literal | '(' expression ')'

A star raises everything so far to the power of the whole expression on its right, so `2*3+1` is
`2*(3+1)` and `1+1*3` is `(1+1)*3`. The exponent is one level deeper.
-/

namespace Reckon

open Production

/-- `'*' inner`, or nothing if there is no star. -/
def starStep (inner : Production Value) (value : Value) : Production (Option Value) := do
  if (← lookahead) = .star then
    let place ← position
    let _ ← advance
    let exponent ← deeper inner
    let result ← located place (value.power exponent)
    return some result
  else
    return none

/-- One more addend if there is one, else an exponent. -/
def ternaryStep (inner : Production Value) (value : Value) : Production (Option Value) := do
  match ← sumStep (operandOver inner) value with
  | some next => return some next
  | none => starStep inner value

theorem starStep_moves (inner : Production Value) (value : Value) :
    (starStep inner value).Moves := by
  intro r
  refine movesFrom_lookahead ?_
  split
  · next h => exact movesFrom_position (movesFrom_advance (by simp [h]))
  · exact movesFrom_none

theorem ternaryStep_moves (inner : Production Value) (value : Value) :
    (ternaryStep inner value).Moves := by
  intro r a r' h
  have hs := sumStep_moves (operandOver inner) value r
  rcases hr : (sumStep (operandOver inner) value).run r with ⟨_ | _ | b, s⟩ <;>
    simp only [ternaryStep, run_bind, hr] at h
  · simp at h
  · have hle := (sumStep (operandOver inner) value).unread_le r
    rw [hr] at hle
    exact Nat.lt_of_lt_of_le (starStep_moves inner value s a r' h) hle
  · obtain ⟨-, rfl⟩ : _ ∧ s = r' := by simpa using h
    exact hs b s hr

def Grammar.ternary : Grammar where
  name := "ternary"
  addendOver inner := operandOver inner
  expressionOver inner := do
    let first ← operandOver inner
    repeatWhile (ternaryStep inner) (ternaryStep_moves inner) first

end Reckon
