import Reckon.Fault
import Reckon.Symbol

/-!
# Sources

A source is the list of what its reads will give. After the last entry every read reports the
end of the input.
-/

namespace Reckon

inductive Outcome where
  | byte (b : UInt8)
  /-- This one read reports the end of the input. Later reads go on. -/
  | finish
  | fault (f : Fault)
  deriving DecidableEq, Repr

abbrev Source := List Outcome

namespace Source

def ofBytes (bytes : List UInt8) : Source := bytes.map .byte

/-- The next symbol, and the source after it. An interrupted read is tried again. -/
def next : Source → Except Fault Symbol × Source
  | [] => (.ok .finish, [])
  | .byte b :: rest => (.ok (.byte b), rest)
  | .finish :: rest => (.ok .finish, rest)
  | .fault f :: rest => if f.kind = .interrupted then next rest else (.error f, rest)

theorem next_length_le (s : Source) : s.next.2.length ≤ s.length := by
  induction s with
  | nil => simp [next]
  | cons o rest ih =>
    cases o with
    | byte b => simp [next]
    | finish => simp [next]
    | fault f =>
      simp only [next]
      split
      · simp; omega
      · simp

/-- Only the end of the input can be read again and again. -/
theorem next_length_lt (s : Source) (h : s.next.1 ≠ .ok .finish) :
    s.next.2.length < s.length := by
  induction s with
  | nil => simp [next] at h
  | cons o rest ih =>
    cases o with
    | byte b => simp [next]
    | finish => simp [next]
    | fault f =>
      simp only [next] at h ⊢
      split
      · next hf =>
        rw [if_pos hf] at h
        have := ih h
        simp; omega
      · simp

/-! ## Lines -/

/-- The lines of a source, each without its newline, and the fault that cut the reading short. -/
structure Lines where
  lines : List (List UInt8)
  fault : Option Fault

/-- `pending` is the line being read and `done` the finished lines, both last first. -/
def splitLines (pending : List UInt8) (done : List (List UInt8)) : Source → Lines
  | [] => closed
  | .byte b :: rest =>
    if b = Byte.newline then splitLines [] (pending.reverse :: done) rest
    else splitLines (b :: pending) done rest
  | .finish :: rest =>
    if pending.isEmpty then closed else splitLines [] (pending.reverse :: done) rest
  | .fault f :: rest =>
    if f.kind = .interrupted then splitLines pending done rest else ⟨done.reverse, some f⟩
where
  /-- Nothing after the last newline is no line. -/
  closed : Lines :=
    ⟨(if pending.isEmpty then done else pending.reverse :: done).reverse, none⟩

/-- A fault drops the line it interrupts. -/
def lines (s : Source) : Lines := splitLines [] [] s

end Source

end Reckon
