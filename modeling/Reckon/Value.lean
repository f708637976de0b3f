import Reckon.Text.Decimal

/-!
# Values

Values are 64 bit signed integers. Every operation is exact: a result that does not fit is an
error, and nothing wraps around.
-/

namespace Reckon

abbrev Value := Int64

inductive Operation where
  | literal
  | addition
  | subtraction
  | power
  deriving DecidableEq, Repr

def Operation.text : Operation → String
  | .literal => "literal"
  | .addition => "addition"
  | .subtraction => "subtraction"
  | .power => "exponentiation"

inductive ArithmeticError where
  | overflow (operation : Operation)
  | negativeExponent (exponent : Value)
  deriving DecidableEq

namespace Value

def text (v : Value) : String := Decimal.ofInt v.toInt

/-- The value that stands for `i`, if there is one. -/
def ofInt? (i : Int) : Option Value :=
  if -9223372036854775808 ≤ i ∧ i < 9223372036854775808 then some (Int64.ofInt i) else none

theorem ofInt?_eq_some_iff (i : Int) (v : Value) : ofInt? i = some v ↔ v.toInt = i := by
  have hlo := v.le_toInt
  have hhi := v.toInt_lt
  constructor
  · intro h
    simp only [ofInt?] at h
    split at h
    · next hi =>
      rw [← Option.some.inj h]
      exact Int64.toInt_ofInt_of_le hi.1 hi.2
    · simp at h
  · rintro rfl
    rw [ofInt?, if_pos ⟨hlo, hhi⟩, Int64.ofInt_toInt]

theorem ofInt?_eq_none_iff (i : Int) :
    ofInt? i = none ↔ i < -9223372036854775808 ∨ 9223372036854775808 ≤ i := by
  simp only [ofInt?]
  split <;> simp <;> omega

/-! ## Checked operations -/

def add? (a b : Value) : Option Value := ofInt? (a.toInt + b.toInt)

def sub? (a b : Value) : Option Value := ofInt? (a.toInt - b.toInt)

def mul? (a b : Value) : Option Value := ofInt? (a.toInt * b.toInt)

/-- A missing result is an overflow of `operation`. -/
def orOverflow (operation : Operation) : Option Value → Except ArithmeticError Value
  | some v => .ok v
  | none => .error (.overflow operation)

def add (a b : Value) : Except ArithmeticError Value := orOverflow .addition (a.add? b)

def sub (a b : Value) : Except ArithmeticError Value := orOverflow .subtraction (a.sub? b)

/-- The literal `a` with one more digit. The product has to fit before the digit is added. -/
def appendDigit (a : Value) (digit : Nat) : Except ArithmeticError Value :=
  orOverflow .literal ((a.mul? 10).bind fun tens => ofInt? (tens.toInt + digit))

end Value

def ArithmeticError.text : ArithmeticError → String
  | .overflow operation => "integer overflow in " ++ operation.text
  | .negativeExponent exponent => "negative exponent " ++ exponent.text

end Reckon
