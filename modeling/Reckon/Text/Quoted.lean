import Reckon.Text.Combining
import Reckon.Text.Escape
import Reckon.Text.Invisible

/-!
# Quoted text

Text between double quotes, with everything escaped that a reader could not see or could take
for something else.
-/

namespace Reckon.Quoted

def char (c : Char) : List Char :=
  if c = '\x00' then ['\\', '0']
  else if c = '\t' then ['\\', 't']
  else if c = '\n' then ['\\', 'n']
  else if c = '\r' then ['\\', 'r']
  else if c = '"' ∨ c = '\\' then ['\\', c]
  else if Combining.holds c || Invisible.holds c then
    ['\\', 'u', '\x7b'] ++ Escape.hexDigits c.toNat ++ ['\x7d']
  else [c]

def text (s : String) : String := "\"" ++ String.ofList (s.toList.flatMap char) ++ "\""

end Reckon.Quoted
