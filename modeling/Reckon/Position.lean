import Reckon.Text.Decimal

/-! # Positions in the input -/

namespace Reckon

/-- Lines and columns count from zero. A column is a number of bytes. -/
structure Position where
  line : Nat
  column : Nat
  deriving DecidableEq, Ord, Repr

namespace Position

def start : Position := ⟨0, 0⟩

def text (p : Position) : String := Decimal.ofNat p.line ++ ":" ++ Decimal.ofNat p.column

/-- The one further down, or further right on the same line. -/
def later (p q : Position) : Position := if compare p q = .gt then p else q

end Position

end Reckon
