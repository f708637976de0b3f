import Mathlib.Data.List.Forall2
import Mathlib.Data.List.Nodup
import Reckon.Proofs.Batch.Printed
import Reckon.Proofs.Evaluation.Refusals

/-!
# Records that nothing can break

Whatever the input holds, a report is made of whole records, one for each line that failed, and
the number of the line can be read off its record. So the report says which lines the values on
the output belong to.
-/

namespace Reckon

open Production Byte Text

namespace Batch

variable {d : Dialect} {limit : Nat}

/-! ## Numbers of records -/

/-- The number in a record, behind the word in front of it. -/
def recordNumber (record : List UInt8) : Nat :=
  number ((record.drop 5).takeWhile fun b => IsDigit b)

/-- The numbers in a report. Behind the last newline there is no record. -/
def reported (report : List UInt8) : List Nat :=
  (report.splitOn newline).dropLast.map recordNumber

theorem recordNumber_recordText (n : Nat) (e : Failure) :
    recordNumber (bytes (recordText n e)) = n := by
  obtain ⟨numeral, hbytes, hvalue⟩ := Decimal.exists_numeral n
  have hrecord : bytes (recordText n e) =
      bytes "line " ++ (numeral.bytes ++ (bytes ": " ++ bytes e.text)) := by
    rw [recordText, bytes_append, bytes_append, bytes_append, hbytes, List.append_assoc,
      List.append_assoc]
    rfl
  have hword : (bytes "line ").length = 5 := by decide
  have hcolon : (Symbol.first (bytes ": " ++ bytes e.text)).isDigit = false := by
    rw [show bytes ": " = [58, 32] by decide]
    rfl
  rw [recordNumber, hrecord, List.drop_left' hword,
    Numeral.takeWhile_digits numeral.isDigit_of_mem_bytes hcolon]
  exact hvalue

theorem isPrintable_recordText (n : Nat) {e : Failure} {place : Position}
    (h : e.position? = some place) : IsPrintable (recordText n e) := by
  obtain ⟨what, htext, hwhat⟩ := Failure.exists_text h
  rw [recordText, htext]
  have hat : IsPrintable " at " := by decide
  refine isPrintable_append (isPrintable_append (isPrintable_append ?_ (isPrintable_ofNat n)) ?_)
    (isPrintable_append (isPrintable_append hwhat hat) place.isPrintable_text)
  · decide
  · decide

theorem reported_closed {reports : List (Nat × Failure)}
    (h : ∀ report ∈ reports, IsPrintable (recordText report.1 report.2)) :
    reported (closed (reports.map fun report => bytes (recordText report.1 report.2))) =
      reports.map Prod.fst := by
  have hlines : AreLines (reports.map fun report => bytes (recordText report.1 report.2)) := by
    intro record hrecord
    obtain ⟨report, hreport, rfl⟩ := List.mem_map.mp hrecord
    exact newline_not_mem_bytes (h report hreport)
  have hsplit := splitOn_closed_append_of_not_mem hlines List.not_mem_nil
  rw [List.append_nil] at hsplit
  rw [reported, hsplit, List.dropLast_concat, List.map_map]
  exact List.map_congr_left fun report _ => recordNumber_recordText report.1 report.2

/-! ## Failures and values -/

variable (d limit)

/-- A line with a value. -/
def hasValue (l : List UInt8 × Nat) : Bool := (d.evaluate limit (.ofBytes l.1)).1.isOk

variable (lines : List (List UInt8 × Nat))

theorem forall₂_values :
    List.Forall₂ (fun l v => (d.evaluate limit (.ofBytes l.1)).1 = .ok v)
      (lines.filter (hasValue d limit)) (values d limit lines) := by
  induction lines with
  | nil => exact .nil
  | cons l lines ih =>
    cases h : (d.evaluate limit (.ofBytes l.1)).1 with
    | ok v =>
      rw [values, List.filterMap_cons_some (by rw [h]; rfl),
        List.filter_cons_of_pos (by rw [hasValue, h]; rfl)]
      exact .cons h ih
    | error e =>
      rw [values, List.filterMap_cons_none (by rw [h]; rfl),
        List.filter_cons_of_neg (by rw [hasValue, h]; exact Bool.false_ne_true)]
      exact ih

theorem map_number_failures : (failures d limit lines).map Prod.fst =
    (lines.filter fun l => !hasValue d limit l).map Prod.snd := by
  induction lines with
  | nil => rfl
  | cons l lines ih =>
    cases h : (d.evaluate limit (.ofBytes l.1)).1 with
    | ok v =>
      rw [failures, List.filterMap_cons_none (by rw [h]),
        List.filter_cons_of_neg (by rw [hasValue, h]; exact Bool.false_ne_true)]
      exact ih
    | error e =>
      rw [failures, List.filterMap_cons_some (by rw [h]),
        List.filter_cons_of_pos (by rw [hasValue, h]; rfl)]
      exact congrArg (l.2 :: ·) ih

theorem mem_failures {number : Nat} {e : Failure} (h : (number, e) ∈ failures d limit lines) :
    ∃ line, (line, number) ∈ lines ∧ (d.evaluate limit (.ofBytes line)).1 = .error e := by
  obtain ⟨⟨line, number'⟩, hmem, hreport⟩ := List.mem_filterMap.mp h
  dsimp only at hreport
  split at hreport
  · exact nomatch hreport
  · next e' he =>
    obtain ⟨rfl, rfl⟩ : number' = number ∧ e' = e := by simpa using hreport
    exact ⟨line, hmem, he⟩

theorem length_values_add_failures :
    (values d limit lines).length + (failures d limit lines).length = lines.length := by
  have hvalues := (forall₂_values d limit lines).length_eq
  have hfailures := congrArg List.length (map_number_failures d limit lines)
  rw [List.length_map, List.length_map] at hfailures
  rw [← hvalues, hfailures]
  exact (List.length_eq_length_filter_add _).symm

variable {lines}

/-- The lines that are not among the failures have the values. -/
theorem filter_not_mem_failures (h : lines.Pairwise fun l m => l.2 < m.2) :
    (lines.filter fun l => l.2 ∉ (failures d limit lines).map Prod.fst) =
      lines.filter (hasValue d limit) := by
  have hnodup : (lines.map Prod.snd).Nodup :=
    List.pairwise_map.mpr (h.imp fun hlt => Nat.ne_of_lt hlt)
  refine List.filter_congr fun l hl => ?_
  rw [map_number_failures]
  cases hl' : hasValue d limit l with
  | true =>
    refine decide_eq_true fun hmem => ?_
    obtain ⟨m, hm, hnumber⟩ := List.mem_map.mp hmem
    obtain ⟨hm, hm'⟩ := List.mem_filter.mp hm
    obtain rfl := List.inj_on_of_nodup_map hnodup hm hl hnumber
    rw [hl'] at hm'
    exact nomatch hm'
  | false =>
    refine decide_eq_false fun hnot => hnot ?_
    exact List.mem_map_of_mem (List.mem_filter.mpr ⟨hl, by rw [hl']; rfl⟩)

theorem pairwise_failures (h : lines.Pairwise fun l m => l.2 < m.2) :
    ((failures d limit lines).map Prod.fst).Pairwise (· < ·) := by
  rw [map_number_failures]
  exact List.pairwise_map.mpr (h.filter _)

/-! ## Reports -/

/-- The lines of a text that a report leaves to the output. -/
def answered (text report : List UInt8) : List (List UInt8 × Nat) :=
  (numberedLines text).filter fun l => l.2 ∉ reported report

/-- A record about a line that is not empty, with one place in it. -/
structure IsRecord (d : Dialect) (limit : Nat) (text : List UInt8) (number : Nat)
    (record : String) : Prop where
  printable : IsPrintable record
  about : ∃ line e column, (line, number) ∈ numberedLines text ∧
    (d.evaluate limit (.ofBytes line)).1 = .error e ∧
    e.position? = some ⟨0, column⟩ ∧ column ≤ line.length ∧
    record = "line " ++ Decimal.ofNat number ++ ": " ++ e.text ∧
    ∃ what, e.text = what ++ " at 0:" ++ Decimal.ofNat column

theorem isRecord_of_mem {text : List UInt8} {number : Nat} {e : Failure}
    (h : (number, e) ∈ failures d limit (numberedLines text)) :
    IsRecord d limit text number (recordText number e) := by
  obtain ⟨line, hline, he⟩ := mem_failures d limit _ h
  obtain ⟨column, hposition, hcolumn⟩ := exists_column_of_error he
  obtain ⟨what, htext, -⟩ := Failure.exists_text hposition
  refine ⟨isPrintable_recordText number hposition, line, e, column, hline, he, hposition, hcolumn,
    rfl, what, ?_⟩
  have hfirst : " at " ++ (Decimal.ofNat 0 ++ ":") = " at 0:" := by decide +kernel
  rw [htext, ← hfirst, Position.text]
  simp only [String.append_assoc]

theorem toList_err_unhindered (d : Dialect) (limit : Nat) (text : List UInt8) :
    (unhindered d limit text).err.written.data.toList =
      closed ((failures d limit (numberedLines text)).map fun report =>
        bytes (recordText report.1 report.2)) := by
  rw [err_unhindered, errText, toList_failureText]

theorem reported_unhindered (d : Dialect) (limit : Nat) (text : List UInt8) :
    reported (unhindered d limit text).err.written.data.toList =
      (failures d limit (numberedLines text)).map Prod.fst := by
  rw [toList_err_unhindered]
  exact reported_closed fun report hreport => (isRecord_of_mem d limit hreport).printable

/-- A report is as many records as lines failed, each on a line of its own, and its numbers only
go up. The output has the values of the other lines. -/
theorem run_records (d : Dialect) (limit : Nat) (text : List UInt8) :
    let s := unhindered d limit text
    let report := s.err.written.data.toList
    (∃ records : List String, report = closed (records.map bytes) ∧ records.length = s.failed ∧
        List.Forall₂ (IsRecord d limit text) (reported report) records) ∧
      (reported report).Pairwise (· < ·) ∧
      ∃ vs : List Value, s.out.written.data.toList = closed (vs.map Value.bytes) ∧
        vs.length + s.failed = (numberedLines text).length ∧
        (∀ v ∈ vs, IsDecimal v.bytes v.toInt) ∧
        List.Forall₂ (fun l v => (d.evaluate limit (.ofBytes l.1)).1 = .ok v)
          (answered text report) vs := by
  intro s report
  have hreported : reported report = _ := reported_unhindered d limit text
  have hpairwise : (numberedLines text).Pairwise fun l m => l.2 < m.2 := pairwise_numbered _ _
  refine ⟨⟨(failures d limit (numberedLines text)).map fun r => recordText r.1 r.2, ?_, ?_, ?_⟩,
    ?_, values d limit (numberedLines text), ?_, ?_, ?_, ?_⟩
  · rw [List.map_map]
    exact toList_err_unhindered d limit text
  · rw [List.length_map, failed_unhindered]
  · rw [hreported, List.forall₂_map_left_iff, List.forall₂_map_right_iff, List.forall₂_same]
    exact fun r hr => isRecord_of_mem d limit hr
  · rw [hreported]
    exact pairwise_failures d limit hpairwise
  · rw [out_unhindered, outText, toList_valueText]
  · rw [failed_unhindered, length_values_add_failures]
  · exact fun v _ => v.isDecimal_bytes
  · rw [answered, hreported, filter_not_mem_failures d limit hpairwise]
    exact forall₂_values d limit _

end Batch

end Reckon
