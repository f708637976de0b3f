import Reckon.Proofs.Batch.Delivery

/-!
# Line by line

With sinks that take everything, a batch is no more than its lines. What it says about a line does
not depend on the other lines, and only the number depends on the lines in front of it.
-/

namespace Reckon.Batch

variable {d : Dialect} {limit : Nat} {outRoom errRoom : Option (Nat × Fault)}

/-- A batch that no stream stops. -/
def unhindered (d : Dialect) (limit : Nat) (text : List UInt8) : State :=
  (run d limit (.ofBytes text) .endless .endless).2

theorem delivered_nil (d : Dialect) (limit : Nat) (outRoom errRoom : Option (Nat × Fault)) :
    Delivered d limit outRoom errRoom [] ⟨0, ⟨.empty, outRoom⟩, ⟨.empty, errRoom⟩, #[]⟩ := by
  have hholding (room : Option (Nat × Fault)) : Sink.holding room .empty = ⟨.empty, room⟩ := by
    cases room <;> rfl
  have hout : outText d limit [] = .empty := rfl
  have herr : errText d limit [] = .empty := rfl
  refine ⟨by rw [hout, hholding], by rw [herr, hholding], rfl, ?_, ?_⟩
  · rw [hout]
    exact fun n _ _ => Nat.zero_le n
  · rw [herr]
    exact fun n _ _ => Nat.zero_le n

theorem run_of_ok {source : Source} {out err : Sink} {ls : List (List UInt8)}
    {stop : Option Fault} {s : State} (hsource : source.lines = ⟨ls, stop⟩)
    (h : lines d limit 1 ls ⟨0, out, err, #[]⟩ = (.ok (), s)) :
    run d limit source out err = (stop.elim (.ok ()) .error, s) := by
  rw [run, hsource, h]
  cases stop <;> rfl

theorem run_of_error {source : Source} {out err : Sink} {ls : List (List UInt8)}
    {stop : Option Fault} {s : State} {fault : Fault} (hsource : source.lines = ⟨ls, stop⟩)
    (h : lines d limit 1 ls ⟨0, out, err, #[]⟩ = (.error fault, s)) :
    run d limit source out err = (.error fault, s) := by
  rw [run, hsource, h]

theorem run_endless_source (d : Dialect) (limit : Nat) (source : Source) :
    (run d limit source .endless .endless).1 = source.lines.fault.elim (.ok ()) .error ∧
      Delivered d limit none none (numbered 1 source.lines.lines)
        (run d limit source .endless .endless).2 := by
  rcases lines_delivered source.lines.lines 1 (delivered_nil d limit none none) with
    ⟨s, hlines, hdelivered⟩ | ⟨_, _, _, _, _, -, -, -, -, -, ⟨n, hnone, -⟩ | ⟨n, hnone, -⟩⟩
  · have hrun : run d limit source .endless .endless = _ := run_of_ok rfl hlines
    rw [hrun]
    exact ⟨rfl, hdelivered⟩
  · exact nomatch hnone
  · exact nomatch hnone

theorem run_endless (d : Dialect) (limit : Nat) (text : List UInt8) :
    run d limit (.ofBytes text) .endless .endless = (.ok (), unhindered d limit text) ∧
      Delivered d limit none none (numberedLines text) (unhindered d limit text) := by
  obtain ⟨hresult, hdelivered⟩ := run_endless_source d limit (.ofBytes text)
  obtain ⟨ls, hsource, htext⟩ := Source.lines_ofBytes text
  rw [hsource, ← numberedLines_eq htext] at hdelivered
  rw [hsource] at hresult
  exact ⟨Prod.ext hresult rfl, hdelivered⟩

theorem out_unhindered (d : Dialect) (limit : Nat) (text : List UInt8) :
    (unhindered d limit text).out.written = outText d limit (numberedLines text) :=
  congrArg Sink.written (run_endless d limit text).2.out

theorem err_unhindered (d : Dialect) (limit : Nat) (text : List UInt8) :
    (unhindered d limit text).err.written = errText d limit (numberedLines text) :=
  congrArg Sink.written (run_endless d limit text).2.err

theorem failed_unhindered (d : Dialect) (limit : Nat) (text : List UInt8) :
    (unhindered d limit text).failed = (failures d limit (numberedLines text)).length :=
  (run_endless d limit text).2.failed

/-- What stands behind a line only adds to what is written. -/
theorem exists_unhindered_append {text before line : List UInt8} (h : IsLine text before line) :
    (∃ more, (unhindered d limit text).out.written =
        (unhindered d limit (before ++ line)).out.written ++ more) ∧
      ∃ more, (unhindered d limit text).err.written =
        (unhindered d limit (before ++ line)).err.written ++ more := by
  obtain ⟨behind, rfl, rfl | hhead⟩ := h.back
  · rw [List.append_nil]
    exact ⟨⟨.empty, ByteArray.append_empty.symm⟩, ⟨.empty, ByteArray.append_empty.symm⟩⟩
  · obtain ⟨rest, rfl⟩ := List.head?_eq_some_iff.mp hhead
    simp only [out_unhindered, err_unhindered, numberedLines_append, outText_append,
      errText_append]
    exact ⟨⟨_, rfl⟩, ⟨_, rfl⟩⟩

end Reckon.Batch
