import Reckon.Proofs.Batch.Linewise
import Reckon.Proofs.Evaluation.Reads
import Reckon.Proofs.Evaluation.Whole
import Reckon.Proofs.Production.Settings

/-!
# How a line ends

A newline ends an expression just as the end of the input does. An evaluation that meets the one
instead of the other differs in nothing but the symbol that a refusal names.
-/

namespace Reckon

open Production Byte

theorem Symbol.endedBy_first {ahead : List UInt8} (rest : List UInt8) :
    (Symbol.first ahead).endedBy (.first rest) = .first (ahead ++ rest) := by
  cases ahead <;> rfl

theorem Failure.endedBy_moved (e : Failure) (stop : Symbol) (start : Position) (limit : Nat) :
    (e.moved start limit).endedBy stop = (e.endedBy stop).moved start limit := by
  cases e <;> rfl

/-! ## The same line with something behind it -/

namespace Setting

/-- Some line with `rest` behind it instead of nothing. -/
def inFrontOf (limit : Nat) (rest : List UInt8) (h : (Symbol.first rest).isTerminator = true) :
    Setting where
  start := .primed limit .finish []
  stop := .first rest
  stop_isTerminator := h
  GoesOn s source source' := ∃ ahead : List UInt8, newline ∉ ahead ∧ s = .first ahead ∧
    source = .ofBytes ahead.tail ∧ source' = .ofBytes (ahead ++ rest).tail
  next := by
    rintro s source source' ⟨ahead, hahead, rfl, rfl, rfl⟩ hs
    cases ahead with
    | nil => exact absurd hs (by decide)
    | cons b ahead =>
      refine .inl ⟨.first ahead, .ofBytes ahead.tail, .ofBytes (ahead ++ rest).tail,
        Source.next_ofBytes ahead, ?_, ahead, fun hb => hahead (List.mem_cons_of_mem b hb), rfl,
        rfl, rfl⟩
      rw [Symbol.endedBy_first]
      exact Source.next_ofBytes (ahead ++ rest)

variable (limit : Nat) {line rest : List UInt8} (h : (Symbol.first rest).isTerminator = true)

theorem alike_primed (hline : newline ∉ line) :
    (inFrontOf limit rest h).Alike (.primed limit (.first line) (.ofBytes line.tail))
      (.primed limit (.first (line ++ rest)) (.ofBytes (line ++ rest).tail)) :=
  ⟨(Symbol.endedBy_first rest).symm, ⟨line, hline, rfl, rfl, rfl⟩, rfl, rfl, rfl, rfl, rfl, rfl,
    rfl⟩

variable {limit h}

theorem Alike.tally_eq {s r : Reader} (hsr : (inFrontOf limit rest h).Alike s r) :
    r.tally = s.tally := by
  have hconsumed : r.tally.consumed = 0 + s.tally.consumed := hsr.consumed
  have hreads : r.tally.reads + 1 = 1 + s.tally.reads := hsr.reads
  have hdeepest : r.tally.deepest =
    if s.tally.deepest = 0 then 0 else max 0 (0 + s.tally.deepest) := hsr.deepest
  rcases htally : s.tally with ⟨reads, consumed, deepest⟩
  rcases htally' : r.tally with ⟨reads', consumed', deepest'⟩
  simp only [htally, htally'] at hconsumed hreads hdeepest
  split at hdeepest <;> congr <;> omega

theorem carries_whole (d : Dialect) (s r : Reader) :
    (inFrontOf limit rest h).Carries id d.grammar.whole d.grammar.whole s r := by
  refine .bind (carries_expression d s r) fun v s r _ => ?_
  refine .bind carries_requireEnd fun _ s r _ hsr => ⟨?_, hsr.log _ _⟩
  show Except.ok (v, r.tally) = .ok (v, s.tally)
  rw [hsr.tally_eq]

theorem evaluate_inFrontOf (d : Dialect) (hline : newline ∉ line) :
    (d.grammar.evaluate limit (.ofBytes (line ++ rest))).1 =
        (d.grammar.evaluate limit (.ofBytes line)).1.mapError (inFrontOf limit rest h).failure ∧
      (d.grammar.evaluate limit (.ofBytes (line ++ rest))).2.tally =
        (d.grammar.evaluate limit (.ofBytes line)).2.tally := by
  obtain ⟨houtcome, halike⟩ := carries_whole (h := h) d _ _ (alike_primed limit h hline)
  rw [← evaluate_ofBytes, ← evaluate_ofBytes] at houtcome halike
  refine ⟨houtcome.trans ?_, halike.tally_eq⟩
  cases (d.grammar.evaluate limit (.ofBytes line)).1 <;> rfl

end Setting

/-- What stands behind the line only shows in what a refusal finds there. -/
theorem evaluate_endedBy (d : Dialect) (limit : Nat) {line rest : List UInt8}
    (hline : newline ∉ line) (hrest : (Symbol.first rest).isTerminator = true) :
    (d.grammar.evaluate limit (.ofBytes (line ++ rest))).1 =
      (d.grammar.evaluate limit (.ofBytes line)).1.mapError (Failure.endedBy (.first rest)) := by
  rw [(Setting.evaluate_inFrontOf (h := hrest) d hline).1]
  rcases h : (d.grammar.evaluate limit (.ofBytes line)).1 with e | out
  · -- With nothing behind the line, both runs are the same, so the failure is where it was.
    have hsame := (@Setting.evaluate_inFrontOf limit _ [] rfl d hline).1
    rw [List.append_nil, h] at hsame
    have hmoved : e = (e.endedBy .finish).moved .start limit := Except.error.inj hsame
    rw [Failure.endedBy_finish] at hmoved
    show Except.error ((e.endedBy (.first rest)).moved .start limit) = .error (e.endedBy _)
    rw [← Failure.endedBy_moved, ← hmoved]
  · rfl

/-! ## First lines -/

open Batch

/-- What stands behind the first line. -/
def lineEnd (text : List UInt8) : Symbol := .first (text.dropWhile (· ≠ newline))

theorem newline_not_mem_firstLine (text : List UInt8) : newline ∉ firstLine text := by
  intro h
  simpa using List.mem_takeWhile_imp h

theorem evaluate_firstLine (d : Dialect) (limit : Nat) (text : List UInt8) :
    (d.evaluate limit (.ofBytes text)).1 =
      (d.evaluate limit (.ofBytes (firstLine text))).1.mapError (Failure.endedBy (lineEnd text)) := by
  have h :=
    evaluate_endedBy d limit (newline_not_mem_firstLine text) (isTerminator_first_drop text)
  rw [firstLine, List.takeWhile_append_dropWhile, ← firstLine] at h
  rw [evaluate_fst, evaluate_fst, h]
  cases (d.grammar.evaluate limit (.ofBytes (firstLine text))).1 <;> rfl

theorem numberedLines_firstLine {text : List UInt8} (h : firstLine text ≠ []) :
    ∃ more, numberedLines text = (firstLine text, 1) :: more := by
  obtain ⟨rest, hrest⟩ : ∃ rest, text.splitOn newline = firstLine text :: rest := by
    have hfree := newline_not_mem_firstLine text
    have htext := List.takeWhile_append_dropWhile (p := (· ≠ newline)) (l := text)
    cases hdrop : text.dropWhile (· ≠ newline) with
    | nil =>
      rw [hdrop, List.append_nil, ← firstLine] at htext
      exact ⟨[], by rw [← List.splitOn_eq_singleton hfree, htext]⟩
    | cons b rest =>
      have hb := isTerminator_first_drop text
      rw [hdrop] at hb
      obtain rfl : b = newline := by simpa [Symbol.isTerminator] using hb
      refine ⟨rest.splitOn newline, ?_⟩
      rw [← List.splitOn_append_cons_self_of_not_mem hfree, firstLine, ← hdrop, htext]
  rw [numberedLines, hrest, numbered_cons_of_ne_nil h]
  exact ⟨_, rfl⟩

/-- An evaluation of a text gives the answer that a batch gives to the first line. -/
theorem evaluate_terminated (d : Dialect) (limit : Nat) :
    (∀ line rest : List UInt8, newline ∉ line →
      (d.grammar.evaluate limit (.ofBytes (line ++ newline :: rest))).1 =
          (d.grammar.evaluate limit (.ofBytes line)).1.mapError
            (Failure.endedBy (.byte newline)) ∧
        (d.grammar.evaluate limit (.ofBytes (line ++ newline :: rest))).2.tally =
          (d.grammar.evaluate limit (.ofBytes line)).2.tally) ∧
    ∀ text, firstLine text ≠ [] → ∃ more, numberedLines text = (firstLine text, 1) :: more ∧
      ((∃ v, (d.evaluate limit (.ofBytes text)).1 = .ok v ∧
          (unhindered d limit text).out.written = (valueLine v).toUTF8 ++ outText d limit more ∧
          (unhindered d limit text).err.written = errText d limit more) ∨
        ∃ e : Failure, (d.evaluate limit (.ofBytes text)).1 = .error (e.endedBy (lineEnd text)) ∧
          (unhindered d limit text).out.written = outText d limit more ∧
          (unhindered d limit text).err.written =
            (failureLine 1 e).toUTF8 ++ errText d limit more) := by
  refine ⟨fun line rest hline => ⟨?_, ?_⟩, fun text hfirst => ?_⟩
  · exact evaluate_endedBy d limit hline rfl
  · exact (Setting.evaluate_inFrontOf (h := rfl) d hline).2
  obtain ⟨more, hmore⟩ := numberedLines_firstLine hfirst
  refine ⟨more, hmore, ?_⟩
  rw [evaluate_firstLine, out_unhindered, err_unhindered, hmore, ← List.singleton_append,
    outText_append, errText_append]
  cases h : (d.evaluate limit (.ofBytes (firstLine text))).1 with
  | ok v =>
    have hout := (outText_of_ok [] 1 h).trans ByteArray.empty_append
    have herr := errText_of_ok [] 1 h
    rw [List.nil_append] at hout herr
    rw [hout, herr]
    exact .inl ⟨v, rfl, rfl, ByteArray.empty_append⟩
  | error e =>
    have hout := outText_of_error [] 1 h
    have herr := (errText_of_error [] 1 h).trans ByteArray.empty_append
    rw [List.nil_append] at hout herr
    rw [hout, herr]
    exact .inr ⟨e, rfl, ByteArray.empty_append, rfl⟩

/-- Where the batch finds the end of the input, an evaluation of the whole text finds a newline. -/
theorem evaluate_unfinished_line :
    (Dialect.standard.grammar.evaluate 0 (.ofBytes [49, plus, newline, 55])).1 =
        .error (.refused ⟨.operand, .byte newline, ⟨0, 2⟩⟩) ∧
      (Dialect.standard.grammar.evaluate 0 (.ofBytes [49, plus, newline, 55])).2.tally =
        ⟨3, 2, 0⟩ ∧
      ∃ more, numberedLines [49, plus, newline, 55] = ([49, plus], 1) :: more := by
  obtain ⟨hline, hbatch⟩ := evaluate_terminated .standard 0
  obtain ⟨houtcome, htally⟩ := hline [49, plus] [55] (by decide)
  obtain ⟨more, hmore, -⟩ := hbatch [49, plus, newline, 55] (by decide)
  have halone : (Dialect.standard.grammar.evaluate 0 (.ofBytes [49, plus])).1 =
      .error (.refused ⟨.operand, .finish, ⟨0, 2⟩⟩) := by
    decide +kernel
  refine ⟨?_, htally.trans (by decide +kernel), more, hmore⟩
  exact houtcome.trans (by rw [halone]; rfl)

end Reckon
