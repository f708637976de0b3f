import Reckon.Failure
import Reckon.Text.Labelled
import Reckon.Text.Quoted

/-!
# Failures in detail

The log shows a failure with all its parts labelled.
-/

namespace Reckon

open Labelled

def Position.detail (p : Position) : String :=
  record "Position" [("line", Decimal.ofNat p.line), ("column", Decimal.ofNat p.column)]

def Symbol.detail : Symbol → String
  | .byte b => wrap "Byte" (Decimal.ofNat b.toNat)
  | .finish => "End"

def Expected.detail : Expected → String
  | .byte b => wrap "Symbol" (Decimal.ofNat b.toNat)
  | .operand => "Operand"
  | .digit => "Digit"
  | .literalEnd => "LiteralEnd"
  | .finish => "End"

def Operation.detail : Operation → String
  | .literal => "Literal"
  | .addition => "Add"
  | .subtraction => "Subtract"
  | .power => "Power"

def ArithmeticError.detail : ArithmeticError → String
  | .overflow operation => wrap "Overflow" operation.detail
  | .negativeExponent exponent => wrap "NegativeExponent" exponent.text

def FaultKind.detail : FaultKind → String
  | .other => "Other"
  | .unexpectedEnd => "UnexpectedEof"
  | .wouldBlock => "WouldBlock"
  | .brokenPipe => "BrokenPipe"
  | .connectionReset => "ConnectionReset"
  | .permissionDenied => "PermissionDenied"
  | .invalidData => "InvalidData"
  | .timedOut => "TimedOut"
  | .interrupted => "Interrupted"
  | .writeZero => "WriteZero"
  | .notFound => "NotFound"
  | .isDirectory => "IsADirectory"
  | .notDirectory => "NotADirectory"
  | .nameTooLong => "InvalidFilename"

def Fault.detail (f : Fault) : String :=
  match f.message with
  | some message =>
    record "Custom" [("kind", f.kind.detail), ("error", Quoted.text message)]
  | none => wrap "Kind" f.kind.detail

def Refusal.detail (r : Refusal) : String :=
  record "SyntaxError"
    [("expected", r.expected.detail), ("found", r.found.detail), ("position", r.position.detail)]

def Failure.detail : Failure → String
  | .refused refusal => wrap "Syntax" refusal.detail
  | .arithmetic cause position =>
    record "Arith" [("source", cause.detail), ("position", position.detail)]
  | .tooDeep limit position =>
    record "DepthExceeded" [("limit", Decimal.ofNat limit), ("position", position.detail)]
  | .unreadable fault => wrap "Io" fault.detail

end Reckon
