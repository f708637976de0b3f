/-!
# Numbers on the command line

A count is decimal digits, with a plus sign in front if one likes. It has to fit in 64 bits.
-/

namespace Reckon.CommandLine

inductive NumberError where
  | empty
  | invalidDigit
  | tooLarge
  deriving DecidableEq, Repr

def NumberError.text : NumberError → String
  | .empty => "cannot parse integer from empty string"
  | .invalidDigit => "invalid digit found in string"
  | .tooLarge => "number too large to fit in target type"

def largestCount : Nat := 18446744073709551615

/-- `value` with these digits behind it. The first character that cannot stand there decides. -/
def readDigits (value : Nat) : List Char → Except NumberError Nat
  | [] => .ok value
  | c :: rest =>
    if c.isDigit then
      let longer := 10 * value + (c.toNat - '0'.toNat)
      if longer ≤ largestCount then readDigits longer rest else .error .tooLarge
    else .error .invalidDigit

def readCount (s : String) : Except NumberError Nat :=
  match s.toList with
  | [] => .error .empty
  | ['+'] => .error .invalidDigit
  | '+' :: digits => readDigits 0 digits
  | digits => readDigits 0 digits

end Reckon.CommandLine
