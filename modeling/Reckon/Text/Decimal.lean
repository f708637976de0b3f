/-! # Decimal text -/

namespace Reckon.Decimal

/-- The character of a decimal digit, for `d < 10`. -/
def digit (d : Nat) : Char := Char.ofNat (48 + d)

/-- The digits of `n`, most significant first and without leading zeros. -/
def digits (n : Nat) : List Char :=
  if n < 10 then [digit n] else digits (n / 10) ++ [digit (n % 10)]
termination_by n

def ofNat (n : Nat) : String := String.ofList (digits n)

def ofInt : Int → String
  | .ofNat n => ofNat n
  | .negSucc n => "-" ++ ofNat (n + 1)

end Reckon.Decimal
