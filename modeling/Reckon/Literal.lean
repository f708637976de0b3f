import Reckon.Production

/-!
# Number literals

A literal is `0`, or digits that do not start with `0`. Its value is built while its digits are
read.
-/

namespace Reckon

open Production

/-- One more digit of the literal that began at `start`. A digit that makes it too large is not
consumed. -/
def digitStep (start : Position) (value : Value) : Production (Option Value) := do
  match (← lookahead).digit? with
  | none => return none
  | some d =>
    let longer ← located start (value.appendDigit d)
    let _ ← advance
    return some longer

theorem digitStep_moves (start : Position) (value : Value) : (digitStep start value).Moves := by
  intro r
  refine movesFrom_lookahead ?_
  rcases hd : r.lookahead.digit? with _ | d
  · exact movesFrom_none
  · refine movesFrom_located fun longer => movesFrom_advance ?_
    rintro hf
    simp [hf, Symbol.digit?] at hd

/-- A literal that begins with `0` ends there. -/
def literal : Production Value := do
  let start ← position
  match (← lookahead).digit? with
  | none => refuse .digit
  | some 0 =>
    let _ ← advance
    if (← lookahead).isDigit then refuse .literalEnd else return 0
  | some d =>
    let _ ← advance
    let value ← repeatWhile (digitStep start) (digitStep_moves start) (Int64.ofNat d)
    note fun _ => .literal value start
    return value

end Reckon
