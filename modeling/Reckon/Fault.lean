/-!
# Stream faults

A fault is what a stream reports when a read or a write does not work. It has a kind, and
sometimes a message of its own.
-/

namespace Reckon

inductive FaultKind where
  | other
  | unexpectedEnd
  | wouldBlock
  | brokenPipe
  | connectionReset
  | permissionDenied
  | invalidData
  | timedOut
  | interrupted
  | writeZero
  | notFound
  | isDirectory
  | notDirectory
  | nameTooLong
  deriving DecidableEq, Repr

def FaultKind.text : FaultKind → String
  | .other => "other error"
  | .unexpectedEnd => "unexpected end of file"
  | .wouldBlock => "operation would block"
  | .brokenPipe => "broken pipe"
  | .connectionReset => "connection reset"
  | .permissionDenied => "permission denied"
  | .invalidData => "invalid data"
  | .timedOut => "timed out"
  | .interrupted => "operation interrupted"
  | .writeZero => "write zero"
  | .notFound => "entity not found"
  | .isDirectory => "is a directory"
  | .notDirectory => "not a directory"
  | .nameTooLong => "invalid filename"

structure Fault where
  kind : FaultKind
  message : Option String
  deriving DecidableEq, Repr

namespace Fault

def text (f : Fault) : String := f.message.getD f.kind.text

/-- A writer that takes no bytes at all. -/
def stalledWriter : Fault := ⟨.writeZero, some "failed to write whole buffer"⟩

end Fault

end Reckon
