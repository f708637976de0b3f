import Reckon.Fault
import Reckon.Symbol
import Reckon.Value

/-!
# Failures

A failure ends an evaluation. The input breaks the grammar, arithmetic has no answer, the
nesting is too deep, or the source cannot be read.
-/

namespace Reckon

/-- What would have been accepted where the input breaks the grammar. -/
inductive Expected where
  | byte (b : UInt8)
  /-- The start of an operand: a digit or an opening parenthesis. -/
  | operand
  | digit
  /-- No further digit after a leading zero. -/
  | literalEnd
  | finish
  deriving DecidableEq, Repr

def Expected.text : Expected → String
  | .byte b => (Symbol.byte b).text
  | .operand => "a digit or '('"
  | .digit => "a digit"
  | .literalEnd => "end of literal after leading zero"
  | .finish => "end of input"

structure Refusal where
  expected : Expected
  found : Symbol
  position : Position
  deriving DecidableEq, Repr

def Refusal.text (r : Refusal) : String :=
  "expected " ++ r.expected.text ++ ", found " ++ r.found.text ++ " at " ++ r.position.text

inductive Failure where
  | refused (refusal : Refusal)
  | arithmetic (cause : ArithmeticError) (position : Position)
  | tooDeep (limit : Nat) (position : Position)
  | unreadable (fault : Fault)
  deriving DecidableEq

namespace Failure

def text : Failure → String
  | .refused refusal => "syntax error: " ++ refusal.text
  | .arithmetic cause position => cause.text ++ " at " ++ position.text
  | .tooDeep limit position =>
    "nesting deeper than " ++ Decimal.ofNat limit ++ " at " ++ position.text
  | .unreadable fault => "read error: " ++ fault.text

/-- Where the evaluation failed. A source that cannot be read has no place in the input. -/
def position? : Failure → Option Position
  | .refused refusal => some refusal.position
  | .arithmetic _ position => some position
  | .tooDeep _ position => some position
  | .unreadable _ => none

/-- The text of the error underneath. Deep nesting is its own reason. -/
def cause? : Failure → Option String
  | .refused refusal => some refusal.text
  | .arithmetic cause _ => some cause.text
  | .tooDeep _ _ => none
  | .unreadable fault => some fault.text

end Failure

end Reckon
