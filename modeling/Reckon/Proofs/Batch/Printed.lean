import Reckon.Proofs.Batch.Linewise
import Reckon.Proofs.Text.Printable

/-!
# What a batch writes, line by line

Every value and every failure is a line of its own, and none has a newline inside.
-/

namespace Reckon.Batch

open Byte Text

/-- A failure as it is reported, without its newline. -/
def recordText (number : Nat) (failure : Failure) : String :=
  "line " ++ Decimal.ofNat number ++ ": " ++ failure.text

theorem bytes_join_lines (texts : List String) :
    bytes (String.join (texts.map (· ++ "\n"))) = closed (texts.map bytes) := by
  induction texts with
  | nil => rfl
  | cons text texts ih =>
    have hnewline : bytes "\n" = [newline] := by decide
    rw [List.map_cons, String.join_cons, bytes_append, bytes_append, ih, hnewline, List.map_cons,
      closed_cons, List.append_assoc, List.singleton_append]

theorem toList_valueText (vs : List Value) :
    (valueText vs).data.toList = closed (vs.map Value.bytes) := by
  have h := bytes_join_lines (vs.map Value.text)
  rwa [List.map_map, List.map_map] at h

theorem toList_failureText (reports : List (Nat × Failure)) :
    (failureText reports).data.toList =
      closed (reports.map fun report => bytes (recordText report.1 report.2)) := by
  have h := bytes_join_lines (reports.map fun report => recordText report.1 report.2)
  rwa [List.map_map, List.map_map] at h

/-! ## Printed values -/

theorem areLines_values (vs : List Value) : AreLines (vs.map Value.bytes) := by
  intro line hline
  obtain ⟨v, -, rfl⟩ := List.mem_map.mp hline
  exact v.newline_not_mem_bytes

/-- Line for line, a text that was printed has its values again. -/
theorem numberedLines_printed (vs : List Value) :
    numberedLines (closed (vs.map Value.bytes)) = (vs.map Value.bytes).zipIdx 1 := by
  rw [numberedLines_eq (hasLines_closed (areLines_values vs)), numbered, List.filter_eq_self]
  rintro ⟨line, number⟩ hline
  obtain ⟨v, -, rfl⟩ := List.mem_map.mp (List.fst_mem_of_mem_zipIdx hline)
  simpa using v.bytes_ne_nil

end Reckon.Batch
