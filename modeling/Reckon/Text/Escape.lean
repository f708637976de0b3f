/-!
# Escaped bytes

A byte is shown as the ASCII character it stands for. Quotes, the backslash and everything
that is not printable ASCII are escaped, so the text holds printable ASCII only.
-/

namespace Reckon.Escape

/-- A lower case hexadecimal digit, for `d < 16`. -/
def hexDigit (d : Nat) : Char :=
  if d < 10 then Char.ofNat (48 + d) else Char.ofNat (87 + d)

/-- The hexadecimal digits of `n`, most significant first and without leading zeros. -/
def hexDigits (n : Nat) : List Char :=
  if n < 16 then [hexDigit n] else hexDigits (n / 16) ++ [hexDigit (n % 16)]
termination_by n

def isPrintableByte (b : UInt8) : Bool := 0x20 ≤ b && b ≤ 0x7e

def byte (b : UInt8) : List Char :=
  if b = 9 then ['\\', 't']
  else if b = 10 then ['\\', 'n']
  else if b = 13 then ['\\', 'r']
  else if b = 34 || b = 39 || b = 92 then ['\\', Char.ofUInt8 b]
  else if isPrintableByte b then [Char.ofUInt8 b]
  else ['\\', 'x', hexDigit (b.toNat / 16), hexDigit (b.toNat % 16)]

end Reckon.Escape
