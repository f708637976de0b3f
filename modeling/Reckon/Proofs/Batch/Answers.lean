import Reckon.Batch
import Reckon.Proofs.Batch.Lines

/-!
# The answers to a batch

Every line that is not empty has a number and one answer: a value for the output or a failure for
the report. The answer depends on the line alone.
-/

namespace Reckon.Batch

/-- The lines that are not empty, numbered from `first`. -/
def numbered (first : Nat) (lines : List (List UInt8)) : List (List UInt8 × Nat) :=
  (lines.zipIdx first).filter fun l => !l.1.isEmpty

/-- The lines of a text that are not empty, numbered from one. -/
def numberedLines (text : List UInt8) : List (List UInt8 × Nat) :=
  numbered 1 (text.splitOn Byte.newline)

theorem numbered_append (first : Nat) (lines more : List (List UInt8)) :
    numbered first (lines ++ more) =
      numbered first lines ++ numbered (first + lines.length) more := by
  rw [numbered, List.zipIdx_append, List.filter_append]
  rfl

theorem numbered_cons_of_ne_nil {first : Nat} {line : List UInt8} (h : line ≠ [])
    (lines : List (List UInt8)) :
    numbered first (line :: lines) = (line, first) :: numbered (first + 1) lines := by
  rw [numbered, List.zipIdx_cons, List.filter_cons_of_pos (by simpa using h)]
  rfl

theorem numbered_cons_nil (first : Nat) (lines : List (List UInt8)) :
    numbered first ([] :: lines) = numbered (first + 1) lines := by
  rw [numbered, List.zipIdx_cons, List.filter_cons_of_neg (by simp)]
  rfl

theorem numbered_add (first more : Nat) (lines : List (List UInt8)) :
    numbered (more + first) lines = (numbered first lines).map (Prod.map id (· + more)) := by
  rw [numbered, ← List.map_snd_add_zipIdx_eq_zipIdx, List.filter_map]
  rfl

theorem numberedLines_eq {text : List UInt8} {lines : List (List UInt8)}
    (h : HasLines text lines) : numberedLines text = numbered 1 lines := by
  rcases h with h | h
  · rw [numberedLines, h]
  · rw [numberedLines, h, numbered_append, numbered_cons_nil]
    exact List.append_nil _

theorem pairwise_numbered (first : Nat) (lines : List (List UInt8)) :
    (numbered first lines).Pairwise fun l m => l.2 < m.2 := by
  have h : ((lines.zipIdx first).map Prod.snd).Pairwise (· < ·) := by
    rw [List.zipIdx_map_snd]
    exact List.pairwise_lt_range'
  exact (List.pairwise_map.mp h).filter _

/-- The lines behind a newline are numbered on from there. -/
theorem numberedLines_append (text more : List UInt8) :
    numberedLines (text ++ Byte.newline :: more) = numberedLines text ++
      (numberedLines more).map (Prod.map id (· + (1 + text.count Byte.newline))) := by
  rw [numberedLines, List.splitOn_append_cons_self, numbered_append, length_splitOn, numberedLines,
    numberedLines, ← numbered_add]
  rfl

/-! ## Values and failures -/

variable (d : Dialect) (limit : Nat)

def values (lines : List (List UInt8 × Nat)) : List Value :=
  lines.filterMap fun l => (d.evaluate limit (.ofBytes l.1)).1.toOption

def failures (lines : List (List UInt8 × Nat)) : List (Nat × Failure) :=
  lines.filterMap fun l =>
    match (d.evaluate limit (.ofBytes l.1)).1 with
    | .ok _ => none
    | .error failure => some (l.2, failure)

/-- The output for these values. -/
def valueText (values : List Value) : ByteArray := (String.join (values.map valueLine)).toUTF8

/-- The report of these failures. -/
def failureText (failures : List (Nat × Failure)) : ByteArray :=
  (String.join (failures.map fun f => failureLine f.1 f.2)).toUTF8

theorem valueText_append (values more : List Value) :
    valueText (values ++ more) = valueText values ++ valueText more := by
  simp [valueText, String.join_append, String.toByteArray_append]

theorem failureText_append (failures more : List (Nat × Failure)) :
    failureText (failures ++ more) = failureText failures ++ failureText more := by
  simp [failureText, String.join_append, String.toByteArray_append]

def outText (lines : List (List UInt8 × Nat)) : ByteArray := valueText (values d limit lines)

def errText (lines : List (List UInt8 × Nat)) : ByteArray := failureText (failures d limit lines)

theorem values_append (lines more : List (List UInt8 × Nat)) :
    values d limit (lines ++ more) = values d limit lines ++ values d limit more :=
  List.filterMap_append

theorem failures_append (lines more : List (List UInt8 × Nat)) :
    failures d limit (lines ++ more) = failures d limit lines ++ failures d limit more :=
  List.filterMap_append

theorem outText_append (lines more : List (List UInt8 × Nat)) :
    outText d limit (lines ++ more) = outText d limit lines ++ outText d limit more := by
  rw [outText, values_append, valueText_append]
  rfl

theorem errText_append (lines more : List (List UInt8 × Nat)) :
    errText d limit (lines ++ more) = errText d limit lines ++ errText d limit more := by
  rw [errText, failures_append, failureText_append]
  rfl

section

variable {d limit} (lines : List (List UInt8 × Nat)) {line : List UInt8} (number : Nat)

theorem outText_of_ok {v : Value} (h : (d.evaluate limit (.ofBytes line)).1 = .ok v) :
    outText d limit (lines ++ [(line, number)]) =
      outText d limit lines ++ (valueLine v).toUTF8 := by
  rw [outText_append]
  simp [outText, values, valueText, h, Except.toOption]

theorem failures_of_ok {v : Value} (h : (d.evaluate limit (.ofBytes line)).1 = .ok v) :
    failures d limit (lines ++ [(line, number)]) = failures d limit lines := by
  rw [failures_append]
  simp [failures, h]

theorem errText_of_ok {v : Value} (h : (d.evaluate limit (.ofBytes line)).1 = .ok v) :
    errText d limit (lines ++ [(line, number)]) = errText d limit lines := by
  rw [errText, failures_of_ok lines number h]
  rfl

theorem outText_of_error {e : Failure} (h : (d.evaluate limit (.ofBytes line)).1 = .error e) :
    outText d limit (lines ++ [(line, number)]) = outText d limit lines := by
  rw [outText, values_append]
  simp [outText, values, h, Except.toOption]

theorem failures_of_error {e : Failure} (h : (d.evaluate limit (.ofBytes line)).1 = .error e) :
    failures d limit (lines ++ [(line, number)]) = failures d limit lines ++ [(number, e)] := by
  rw [failures_append]
  simp [failures, h]

theorem errText_of_error {e : Failure} (h : (d.evaluate limit (.ofBytes line)).1 = .error e) :
    errText d limit (lines ++ [(line, number)]) =
      errText d limit lines ++ (failureLine number e).toUTF8 := by
  rw [errText, failures_of_error lines number h, failureText_append]
  simp [errText, failureText]

end

end Reckon.Batch
