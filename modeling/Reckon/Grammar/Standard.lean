import Reckon.Grammar
import Reckon.Value.Power

/-!
# The standard grammar

    expression := addend (('+' | '-') addend)*
    addend     := operand ('**' operand)*
    operand    := literal | '(' expression ')'

Sums group to the left. A power binds tighter and groups to the right, so `2**3**2` is
`2**(3**2)`.
-/

namespace Reckon

open Production

/-- The operands of a chain that are already read, each with the place of the `**` behind it. -/
structure Chain where
  /-- The last one first. -/
  bases : List (Value × Position)
  last : Value

/-- `'**' operand`, or nothing if there is no star. -/
def chainStep (operand : Production Value) (chain : Chain) : Production (Option Chain) := do
  if (← lookahead) = .star then
    let place ← position
    let _ ← advance
    require Byte.star
    let next ← operand
    return some ⟨(chain.last, place) :: chain.bases, next⟩
  else
    return none

theorem chainStep_moves (operand : Production Value) (chain : Chain) :
    (chainStep operand chain).Moves := by
  intro r
  refine movesFrom_lookahead ?_
  split
  · next h => exact movesFrom_position (movesFrom_advance (by simp [h]))
  · exact movesFrom_none

/-- Raises from the right. No power is taken before the chain is read to its end. -/
def Chain.fold (chain : Chain) : Production Value :=
  chain.bases.foldlM (fun exponent (base, place) => located place (base.power exponent)) chain.last

/-- `chain := operand ('**' operand)*`, grouped to the right. -/
def powerChain (operand : Production Value) : Production Value := do
  let first ← operand
  let chain ← repeatWhile (chainStep operand) (chainStep_moves operand) ⟨[], first⟩
  chain.fold

def Grammar.standard : Grammar where
  name := "standard"
  addendOver inner := powerChain (operandOver inner)
  expressionOver inner := sum (powerChain (operandOver inner))

end Reckon
