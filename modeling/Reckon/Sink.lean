import Reckon.Fault

/-!
# Sinks

A sink takes bytes. It may have room for so many bytes only; then it keeps what fits and
reports its fault.
-/

namespace Reckon

structure Sink where
  written : ByteArray
  /-- The bytes that still fit, and the fault of the first write that needs more. -/
  room : Option (Nat × Fault)

namespace Sink

def endless : Sink := ⟨.empty, none⟩

def limited (bytes : Nat) (fault : Fault) : Sink := ⟨.empty, some (bytes, fault)⟩

/-- Writes as much of `bytes` as fits. Writing up to the last byte is not a fault. -/
def write (s : Sink) (bytes : ByteArray) : Except Fault Unit × Sink :=
  match s.room with
  | none => (.ok (), { s with written := s.written ++ bytes })
  | some (room, fault) =>
    if bytes.size ≤ room then
      (.ok (), ⟨s.written ++ bytes, some (room - bytes.size, fault)⟩)
    else
      (.error fault, ⟨s.written ++ bytes.extract 0 room, some (0, fault)⟩)

end Sink

end Reckon
