import Reckon.Literal

/-!
# Grammars

A grammar says how operands become an expression. It evaluates while it reads: each of its
productions gives the value of the text it consumed, and no tree is built. An expression in
parentheses is read by the same grammar one level deeper, so a grammar is written down with that
inner expression as a parameter.
-/

namespace Reckon

open Production

structure Grammar where
  name : String
  /-- What stands between `+` and `-`. -/
  addendOver : Production Value → Production Value
  expressionOver : Production Value → Production Value

/-! ## Operands and sums -/

/-- `operand := literal | '(' inner ')'` -/
def operandOver (inner : Production Value) : Production Value := do
  let next ← lookahead
  if next.isDigit then
    literal
  else if next = .openParen then
    let _ ← advance
    let value ← deeper inner
    require Byte.closeParen
    return value
  else
    refuse .operand

/-- Consumes the operator in hand and an addend, and applies the operator. -/
def applyTo (addend : Production Value) (value : Value)
    (operation : Value → Value → Except ArithmeticError Value) : Production (Option Value) := do
  let place ← position
  let _ ← advance
  let right ← addend
  let result ← located place (operation value right)
  return some result

/-- `'+' addend` or `'-' addend`, or nothing if there is neither operator. -/
def sumStep (addend : Production Value) (value : Value) : Production (Option Value) := do
  let next ← lookahead
  if next = .plus then applyTo addend value Value.add
  else if next = .minus then applyTo addend value Value.sub
  else return none

theorem applyTo_movesFrom (addend : Production Value) (value : Value)
    (operation : Value → Value → Except ArithmeticError Value) (r : Reader)
    (h : r.lookahead ≠ .finish) : (applyTo addend value operation).MovesFrom r :=
  movesFrom_position (movesFrom_advance h)

theorem sumStep_moves (addend : Production Value) (value : Value) :
    (sumStep addend value).Moves := by
  intro r
  refine movesFrom_lookahead ?_
  split
  · next h => exact applyTo_movesFrom _ _ _ _ (by simp [h])
  · split
    · next h => exact applyTo_movesFrom _ _ _ _ (by simp [h])
    · exact movesFrom_none

/-- `sum := addend (('+' | '-') addend)*`, grouped to the left. -/
def sum (addend : Production Value) : Production Value := do
  let first ← addend
  repeatWhile (sumStep addend) (sumStep_moves addend) first

/-! ## Closing the circle -/

namespace Grammar

/-- The expression of `g` with room for `levels` expressions inside each other. -/
def within (g : Grammar) : Nat → Production Value
  | 0 => overrun
  | levels + 1 =>
    ⟨fun r => (g.expressionOver (g.within levels)).run r,
      fun r => (g.expressionOver (g.within levels)).unread_le r⟩

/-- A whole expression, as deep as the reader allows. -/
def expression (g : Grammar) : Production Value :=
  ⟨fun r => (g.within (r.limit - r.depth + 1)).run r,
    fun r => (g.within (r.limit - r.depth + 1)).unread_le r⟩

def addend (g : Grammar) : Production Value := g.addendOver g.expression

def operand (g : Grammar) : Production Value := operandOver g.expression

/-- One more addend on top of `value`. -/
def nextAddend (g : Grammar) (value : Value) : Production (Option Value) :=
  sumStep g.addend value

end Grammar

end Reckon
