import Reckon.Failure.Detail

/-!
# The log

Records are kept as data and put into words only when they are shown.
-/

namespace Reckon

inductive Level where
  | trace
  | debug
  | warn
  deriving DecidableEq, Repr

def Level.text : Level → String
  | .trace => "TRACE"
  | .debug => "DEBUG"
  | .warn => "WARN"

/-- What a reader has done so far. -/
structure Tally where
  /-- Symbols read from the source, the end of the input included. -/
  reads : Nat
  consumed : Nat
  /-- The deepest nesting level so far. -/
  deepest : Nat
  deriving DecidableEq, Repr

def Tally.detail (t : Tally) : String :=
  Labelled.record "CursorStats" [("reads", Decimal.ofNat t.reads),
    ("consumed", Decimal.ofNat t.consumed), ("max_depth", Decimal.ofNat t.deepest)]

inductive Record where
  | read (symbol : Symbol) (position : Position)
  | consumed (symbol : Symbol)
  | limitReached (limit : Nat) (position : Position)
  | literal (value : Value) (start : Position)
  | result (grammar : String) (value : Value) (tally : Tally)
  | lineFailed (number : Nat) (failure : Failure)
  deriving DecidableEq

namespace Record

def level : Record → Level
  | .read _ _ => .trace
  | .consumed _ => .trace
  | .limitReached _ _ => .warn
  | .literal _ _ => .debug
  | .result _ _ _ => .debug
  | .lineFailed _ _ => .debug

def text : Record → String
  | .read symbol position => "READ: " ++ symbol.text ++ " at " ++ position.text
  | .consumed symbol => "CONSUME: " ++ symbol.text
  | .limitReached limit position =>
    "nesting limit " ++ Decimal.ofNat limit ++ " reached at " ++ position.text
  | .literal value start => "number " ++ value.text ++ " at " ++ start.text
  | .result grammar value tally => grammar ++ ": value " ++ value.text ++ ", " ++ tally.detail
  | .lineFailed number failure =>
    "line " ++ Decimal.ofNat number ++ " failed: " ++ failure.detail

end Record

abbrev Log := Array Record

end Reckon
