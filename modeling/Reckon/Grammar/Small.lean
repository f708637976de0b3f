import Reckon.Grammar

/-!
# Small grammars

Parts of the full grammars that are languages of their own: literals, operands in parentheses,
and sums without powers.
-/

namespace Reckon.Grammar

def literals : Grammar where
  name := "literal"
  addendOver _ := literal
  expressionOver _ := literal

def terms : Grammar where
  name := "terms"
  addendOver inner := operandOver inner
  expressionOver inner := operandOver inner

def sums : Grammar where
  name := "sum"
  addendOver inner := operandOver inner
  expressionOver inner := sum (operandOver inner)

end Reckon.Grammar
