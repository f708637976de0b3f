import Reckon.Proofs.Batch.Printed
import Reckon.Proofs.Evaluation.Reads
import Reckon.Proofs.Evaluation.Whole

/-!
# Reading printed values back

The output of a batch is an input for another one. It prints the values that are not negative once
more, and refuses the sign of the others.
-/

namespace Reckon

open Production Byte

variable {d : Dialect} {limit : Nat}

/-! ## Single values -/

/-- The tree of a printed value is a literal, so no limit is too low for it. -/
theorem evaluate_bytes (d : Dialect) (limit : Nat) {v : Value} (h : 0 ≤ v.toInt) :
    (d.evaluate limit (.ofBytes v.bytes)).1 = .ok v := by
  obtain ⟨numeral, hbytes, hvalue⟩ := v.exists_numeral h
  refine (evaluate_eq_ok_iff d limit _ v).mpr
    ⟨.whole (.start (.single (.literal numeral))), ?_, Nat.zero_le _, ?_, congrArg some hvalue⟩
  · rw [firstLine_of_not_mem v.newline_not_mem_bytes]
    exact hbytes
  · show InRange numeral.value
    rw [hvalue]
    exact v.inRange

/-- Without an operand in front of it, an expression does not begin. -/
theorem run_expression_refuses {r : Reader} (hdigit : r.lookahead.isDigit = false)
    (hopen : r.lookahead ≠ .openParen) :
    d.grammar.expression.run r = (.error (r.refusal .operand), r) := by
  have hoperand (inner : Production Value) :
      (operandOver inner).run r = (.error (r.refusal .operand), r) := by
    unfold operandOver
    rw [run_bind_lookahead, hdigit, if_neg (by decide), if_neg hopen]
    rfl
  show ((d.grammar.expressionOver (d.grammar.within (r.limit - r.depth))).run r) = _
  cases d with
  | standard => exact run_bind_error (run_bind_error (hoperand _))
  | ternary => exact run_bind_error (hoperand _)

theorem evaluate_refuses (d : Dialect) (limit : Nat) {text : List UInt8}
    (hdigit : (Symbol.first text).isDigit = false) (hopen : Symbol.first text ≠ .openParen) :
    (d.evaluate limit (.ofBytes text)).1 = .error (.refused ⟨.operand, .first text, .start⟩) := by
  have hexpression := run_expression_refuses (d := d)
    (r := .primed limit (.first text) (.ofBytes text.tail)) hdigit hopen
  rw [evaluate_fst, evaluate_ofBytes, Grammar.whole, run_bind_error hexpression]
  rfl

theorem evaluate_bytes_of_neg (d : Dialect) (limit : Nat) {v : Value} (h : v.toInt < 0) :
    (d.evaluate limit (.ofBytes v.bytes)).1 = .error (.refused ⟨.operand, .minus, .start⟩) := by
  obtain ⟨numeral, hbytes, -⟩ := v.exists_numeral_of_neg h
  rw [← hbytes]
  have hdigit : Symbol.isDigit .minus = false := by decide
  have hopen : Symbol.minus ≠ .openParen := by decide
  exact evaluate_refuses d limit hdigit hopen

/-! ## Whole outputs -/

namespace Batch

/-- The values that are negative, each with the number of its line. -/
def negatives (first : Nat) (vs : List Value) : List (Value × Nat) :=
  (vs.zipIdx first).filter fun p => p.1.toInt < 0

/-- What is said about a printed line that begins with a sign. -/
def signLine (number : Nat) : String :=
  "line " ++ Decimal.ofNat number ++ ": syntax error: expected a digit or '(', found '-' at 0:0\n"

theorem failureLine_sign (number : Nat) :
    failureLine number (.refused ⟨.operand, .minus, .start⟩) = signLine number := by
  have htext : ": " ++ ((Failure.refused ⟨.operand, .minus, .start⟩).text ++ "\n") =
      ": syntax error: expected a digit or '(', found '-' at 0:0\n" := by
    decide +kernel
  rw [failureLine, String.append_assoc, String.append_assoc, htext]
  rfl

theorem values_printed (d : Dialect) (limit first : Nat) (vs : List Value) :
    values d limit ((vs.map Value.bytes).zipIdx first) = vs.filter fun v => 0 ≤ v.toInt := by
  induction vs generalizing first with
  | nil => rfl
  | cons v vs ih =>
    rw [List.map_cons, List.zipIdx_cons, ← List.singleton_append, values_append, ih]
    rcases Int.lt_or_le v.toInt 0 with hv | hv
    · simp [values, evaluate_bytes_of_neg d limit hv, Except.toOption, hv]
    · simp [values, evaluate_bytes d limit hv, Except.toOption, hv]

theorem failures_printed (d : Dialect) (limit first : Nat) (vs : List Value) :
    failures d limit ((vs.map Value.bytes).zipIdx first) =
      (negatives first vs).map fun p => (p.2, .refused ⟨.operand, .minus, .start⟩) := by
  induction vs generalizing first with
  | nil => rfl
  | cons v vs ih =>
    rw [List.map_cons, List.zipIdx_cons, ← List.singleton_append, failures_append, ih]
    rcases Int.lt_or_le v.toInt 0 with hv | hv
    · simp [failures, evaluate_bytes_of_neg d limit hv, negatives, hv]
    · simp [failures, evaluate_bytes d limit hv, negatives, hv]

/-- The values that a batch prints. -/
def printed (d : Dialect) (limit : Nat) (source : Source) : List Value :=
  values d limit (numbered 1 source.lines.lines)

/-- A batch over what another one has printed. -/
def again (d : Dialect) (limit : Nat) (s : State) : Except Fault Unit × State :=
  run d limit (.ofBytes s.out.written.data.toList) .endless .endless

/-- How a batch over printed values ends. -/
structure ReadsBack (vs : List Value) (result : Except Fault Unit × State) : Prop where
  ended : result.1 = .ok ()
  out : result.2.out.written = valueText (vs.filter fun v => 0 ≤ v.toInt)
  err : result.2.err.written =
    (String.join ((negatives 1 vs).map fun p => signLine p.2)).toUTF8
  failed : result.2.failed = (negatives 1 vs).length

theorem readsBack_again (d : Dialect) (limit : Nat) {s : State} {vs : List Value}
    (h : s.out.written = valueText vs) : ReadsBack vs (again d limit s) := by
  obtain ⟨hrun, hdelivered⟩ := run_endless d limit s.out.written.data.toList
  rw [h, toList_valueText, numberedLines_printed, ← toList_valueText, ← h] at hdelivered
  rw [again, hrun]
  refine ⟨rfl, ?_, ?_, ?_⟩
  · rw [hdelivered.out, outText, values_printed]
    rfl
  · rw [hdelivered.err, errText, failures_printed, failureText, List.map_map]
    simp only [Function.comp_def, failureLine_sign]
    rfl
  · rw [hdelivered.failed, failures_printed, List.length_map]

/-- What a batch prints goes through another batch unchanged, up to the negative values. From the
second time on nothing is lost any more. -/
theorem run_readback (d d' d'' : Dialect) (limit limit' limit'' : Nat) (source : Source) :
    let vs := printed d limit source
    let first := (run d limit source .endless .endless).2
    let second := again d' limit' first
    let third := again d'' limit'' second.2
    first.out.written = valueText vs ∧
      numberedLines first.out.written.data.toList = (vs.map Value.bytes).zipIdx 1 ∧
      ReadsBack vs second ∧ third.1 = .ok () ∧
      third.2.out.written = second.2.out.written ∧ third.2.err.written = .empty ∧
      third.2.failed = 0 := by
  intro vs first second third
  have hfirst : first.out.written = valueText vs := by
    rw [(run_endless_source d limit source).2.out]
    rfl
  have hsecond : ReadsBack vs second := readsBack_again d' limit' hfirst
  have hthird : ReadsBack _ third := readsBack_again d'' limit'' hsecond.out
  have hnone : negatives 1 (vs.filter fun v => 0 ≤ v.toInt) = [] := by
    refine List.filter_eq_nil_iff.mpr fun p hp => ?_
    have hmem := List.mem_filter.mp (List.fst_mem_of_mem_zipIdx hp)
    simpa using hmem.2
  refine ⟨hfirst, ?_, hsecond, hthird.ended, ?_, ?_, ?_⟩
  · rw [hfirst, toList_valueText, numberedLines_printed]
  · rw [hthird.out, hsecond.out, List.filter_filter]
    simp
  · rw [hthird.err, hnone]
    rfl
  · rw [hthird.failed, hnone]
    rfl

end Batch

end Reckon
