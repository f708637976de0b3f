import Reckon.Evaluation
import Reckon.Grammar.Standard
import Reckon.Grammar.Ternary
import Reckon.Text.Quoted

/-! # The two dialects, chosen by name -/

namespace Reckon

inductive Dialect where
  | standard
  | ternary
  deriving DecidableEq, Repr

namespace Dialect

def usual : Dialect := .standard

def grammar : Dialect → Grammar
  | .standard => .standard
  | .ternary => .ternary

def name (d : Dialect) : String := d.grammar.name

/-- Names are exact, also in case. -/
def ofName? (s : String) : Option Dialect :=
  if s = standard.name then some .standard
  else if s = ternary.name then some .ternary
  else none

theorem ofName?_name (d : Dialect) : ofName? d.name = some d := by
  cases d <;> rfl

def unknown (s : String) : String :=
  "unknown grammar " ++ Quoted.text s ++ " (expected `standard` or `ternary`)"

/-- The outcome of one expression, and the log of its evaluation. -/
def evaluate (d : Dialect) (limit : Nat) (source : Source) : Except Failure Value × Log :=
  let (outcome, r) := d.grammar.evaluate limit source
  (outcome.map Prod.fst, r.log)

end Dialect

end Reckon
