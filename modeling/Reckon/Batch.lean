import Reckon.Dialect
import Reckon.Sink

/-!
# Batches of expressions

Every line of the input that is not empty is one expression. Its value goes to the output or its
failure to the report, and the next line starts afresh. Only a stream that fails ends the batch.
-/

namespace Reckon.Batch

/-- A batch after some of its lines. -/
structure State where
  failed : Nat
  out : Sink
  err : Sink
  log : Log

def valueLine (value : Value) : String := value.text ++ "\n"

def failureLine (number : Nat) (failure : Failure) : String :=
  "line " ++ Decimal.ofNat number ++ ": " ++ failure.text ++ "\n"

/-- Evaluates the line with this number, counted from one. -/
def line (d : Dialect) (limit number : Nat) (bytes : List UInt8) (s : State) :
    Except Fault Unit × State :=
  if bytes.isEmpty then (.ok (), s)
  else
    let (outcome, log) := d.evaluate limit (.ofBytes bytes)
    match outcome with
    | .ok value =>
      let (written, out) := s.out.write (valueLine value).toUTF8
      (written, { s with out := out, log := s.log ++ log })
    | .error failure =>
      let (written, err) := s.err.write (failureLine number failure).toUTF8
      (written, { s with
        failed := s.failed + 1
        err := err
        log := (s.log ++ log).push (.lineFailed number failure) })

/-- Evaluates the lines in order, up to the first fault of a sink. -/
def lines (d : Dialect) (limit : Nat) : Nat → List (List UInt8) → State → Except Fault Unit × State
  | _, [], s => (.ok (), s)
  | number, bytes :: rest, s =>
    match line d limit number bytes s with
    | (.ok (), s) => lines d limit (number + 1) rest s
    | (.error fault, s) => (.error fault, s)

/-- The whole batch. The source's own fault comes after the lines before it. -/
def run (d : Dialect) (limit : Nat) (source : Source) (out err : Sink) :
    Except Fault Unit × State :=
  let input := source.lines
  match lines d limit 1 input.lines ⟨0, out, err, #[]⟩, input.fault with
  | (.ok (), s), some fault => (.error fault, s)
  | result, _ => result

end Reckon.Batch
