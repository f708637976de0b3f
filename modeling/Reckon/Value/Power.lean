import Reckon.Value

/-!
# Powers

Powers are exact. The bases 0, 1 and -1 take any exponent that makes sense for them, every
other base takes a non-negative one and is raised by repeated squaring.
-/

namespace Reckon.Value

/-- `acc * base ^ n` by repeated squaring. Every product on the way has to fit. -/
def timesPower? (acc base : Value) (n : Nat) : Option Value :=
  if n = 0 then some acc
  else
    (if n % 2 = 1 then acc.mul? base else some acc).bind fun acc =>
      -- The last factor needs no further square.
      if n = 1 then some acc
      else (base.mul? base).bind fun square => timesPower? acc square (n / 2)
termination_by n

/-- Exponents of repeated squaring fit in 32 bits. -/
def exponentBound : Int := 4294967296

def power (base exponent : Value) : Except ArithmeticError Value :=
  if base = 1 then .ok 1
  else if base = -1 then .ok (if exponent.toInt % 2 = 0 then 1 else -1)
  else if exponent < 0 then .error (.negativeExponent exponent)
  else if base = 0 then .ok (if exponent = 0 then 1 else 0)
  else if exponent.toInt < exponentBound then
    orOverflow .power (timesPower? 1 base exponent.toInt.toNat)
  else .error (.overflow .power)

end Reckon.Value
