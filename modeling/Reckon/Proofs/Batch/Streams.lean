import Reckon.Proofs.Batch.Linewise

/-!
# Batches over streams that fail

The input can end in a fault, and both sinks can run out of room. Whatever happens, the sinks hold
the beginning of what an unhindered batch writes, and the fault is that of the stream that fails
first.
-/

namespace Reckon.Batch

open Byte

/-- The streams of a batch. -/
structure Streams where
  text : List UInt8
  /-- The fault behind the text, if there is one, and what could be read behind it. -/
  stop : Option (Fault × Source)
  outRoom : Option (Nat × Fault)
  errRoom : Option (Nat × Fault)
  uninterrupted : ∀ f more, stop = some (f, more) → f.kind ≠ .interrupted

namespace Streams

variable (w : Streams) (d : Dialect) (limit : Nat)

def source : Source := .ofBytes w.text ++ w.stop.elim [] fun p => .fault p.1 :: p.2

def fault : Option Fault := w.stop.map Prod.fst

/-- The text as far as it counts. A fault takes the unfinished line with it. -/
def seen : List UInt8 := if w.stop.isSome then w.text.rdropWhile (· ≠ newline) else w.text

def run : Except Fault Unit × State :=
  Batch.run d limit w.source ⟨.empty, w.outRoom⟩ ⟨.empty, w.errRoom⟩

/-- The sinks have room for all that another batch has written. -/
def Fits (s : State) : Prop :=
  Sink.Fits w.outRoom s.out.written ∧ Sink.Fits w.errRoom s.err.written

/-- The answer to `line` is the first that does not fit. Its sink takes what it can of it. -/
def FailsAt (before line : List UInt8) (fault : Fault) (s : State) : Prop :=
  w.Fits (unhindered d limit before) ∧
    ((∃ n, w.outRoom = some (n, fault) ∧
        n < (unhindered d limit (before ++ line)).out.written.size ∧
        s.out.written = (unhindered d limit w.seen).out.written.extract 0 n ∧
        s.err.written = (unhindered d limit before).err.written) ∨
      ∃ n, w.errRoom = some (n, fault) ∧
        n < (unhindered d limit (before ++ line)).err.written.size ∧
        s.err.written = (unhindered d limit w.seen).err.written.extract 0 n ∧
        s.out.written = (unhindered d limit before).out.written)

theorem lines_source :
    ∃ lines, w.source.lines = ⟨lines, w.fault⟩ ∧ HasLines w.seen lines := by
  obtain ⟨text, stop, outRoom, errRoom, huninterrupted⟩ := w
  cases stop with
  | none =>
    obtain ⟨lines, hsource, htext⟩ := Source.lines_ofBytes text
    refine ⟨lines, ?_, htext⟩
    rw [source, Option.elim_none, List.append_nil, hsource]
    rfl
  | some p => exact Source.lines_fault text (huninterrupted p.1 p.2 rfl) p.2

theorem failsAt_of_broken {front back : List (List UInt8)} {line : List UInt8} {fault : Fault}
    {s : State} (htext : HasLines w.seen (front ++ line :: back)) (hline : line ≠ [])
    (hbroken : Broken d limit w.outRoom w.errRoom (numbered 1 front) (line, 1 + front.length) fault
      s) : w.FailsAt d limit (closed front) line fault s := by
  obtain ⟨hfront, hisLine⟩ := htext.isLine
  have hbefore := numberedLines_eq (hasLines_closed hfront)
  have hbehind := numberedLines_eq (hasLines_closed_append hfront hisLine.free)
  rw [numbered_append, numbered_cons_of_ne_nil hline] at hbehind
  obtain ⟨⟨moreOut, hmoreOut⟩, ⟨moreErr, hmoreErr⟩⟩ :=
    @exists_unhindered_append d limit _ _ _ hisLine
  obtain ⟨houtFits, herrFits, hbroken⟩ := hbroken
  refine ⟨⟨?_, ?_⟩, ?_⟩
  · rwa [out_unhindered, hbefore]
  · rwa [err_unhindered, hbefore]
  · rw [hmoreOut, hmoreErr]
    simp only [out_unhindered, err_unhindered, hbefore, hbehind]
    refine hbroken.imp ?_ ?_
    · rintro ⟨n, hroom, hlt, hout, herr⟩
      exact ⟨n, hroom, hlt, hout.trans (Sink.extract_append_of_le (Nat.le_of_lt hlt)).symm, herr⟩
    · rintro ⟨n, hroom, hlt, herr, hout⟩
      exact ⟨n, hroom, hlt, herr.trans (Sink.extract_append_of_le (Nat.le_of_lt hlt)).symm, hout⟩

theorem FailsAt.not_fits {w : Streams} {before line : List UInt8} {fault : Fault} {s : State}
    (h : w.FailsAt d limit before line fault s) (hline : IsLine w.seen before line) :
    ¬ w.Fits (unhindered d limit w.seen) := by
  obtain ⟨⟨moreOut, hmoreOut⟩, ⟨moreErr, hmoreErr⟩⟩ :=
    @exists_unhindered_append d limit _ _ _ hline
  rintro ⟨hout, herr⟩
  rw [hmoreOut] at hout
  rw [hmoreErr] at herr
  rcases h.2 with ⟨n, hroom, hlt, -⟩ | ⟨n, hroom, hlt, -⟩
  · exact absurd (Sink.fits_append_left hout n fault hroom) (Nat.not_le.mpr hlt)
  · exact absurd (Sink.fits_append_left herr n fault hroom) (Nat.not_le.mpr hlt)

/-- Either everything is delivered or one of the sinks fails. -/
theorem run_cases :
    (w.Fits (unhindered d limit w.seen) ∧ (w.run d limit).1 = w.fault.elim (.ok ()) .error ∧
        (w.run d limit).2.out.written = (unhindered d limit w.seen).out.written ∧
        (w.run d limit).2.err.written = (unhindered d limit w.seen).err.written ∧
        (w.run d limit).2.failed = (unhindered d limit w.seen).failed) ∨
      ∃ before line fault, IsLine w.seen before line ∧ (w.run d limit).1 = .error fault ∧
        w.FailsAt d limit before line fault (w.run d limit).2 := by
  obtain ⟨ls, hsource, htext⟩ := w.lines_source
  rcases lines_delivered ls 1 (delivered_nil d limit w.outRoom w.errRoom) with
    ⟨s, hlines, hdelivered⟩ | ⟨front, line, back, fault, s, rfl, hline, hlines, hbroken⟩
  · rw [run, run_of_ok hsource hlines]
    obtain ⟨hout, herr, hfailed, houtFits, herrFits⟩ := hdelivered
    rw [List.nil_append, ← numberedLines_eq htext] at *
    rw [← out_unhindered] at hout houtFits
    rw [← err_unhindered] at herr herrFits
    rw [← failed_unhindered] at hfailed
    exact .inl ⟨⟨houtFits, herrFits⟩, rfl, by rw [hout]; rfl, by rw [herr]; rfl, hfailed⟩
  · rw [run, run_of_error hsource hlines]
    exact .inr ⟨closed front, line, fault, htext.isLine.2, rfl,
      w.failsAt_of_broken d limit htext hline hbroken⟩

end Streams

/-- A batch ends well exactly if no stream fails. A fault of the source is the last thing that
happens. A sink that fails holds the beginning of its whole text, and the other sink what was
written before. -/
theorem run_streams (w : Streams) (d : Dialect) (limit : Nat) :
    ((w.run d limit).1 = .ok () ↔ w.fault = none ∧ w.Fits (unhindered d limit w.seen)) ∧
      (w.Fits (unhindered d limit w.seen) →
        (w.run d limit).1 = w.fault.elim (.ok ()) .error ∧
          (w.run d limit).2.out.written = (unhindered d limit w.seen).out.written ∧
          (w.run d limit).2.err.written = (unhindered d limit w.seen).err.written ∧
          (w.run d limit).2.failed = (unhindered d limit w.seen).failed) ∧
      (¬ w.Fits (unhindered d limit w.seen) →
        ∃ before line fault, IsLine w.seen before line ∧ (w.run d limit).1 = .error fault ∧
          w.FailsAt d limit before line fault (w.run d limit).2) := by
  rcases w.run_cases d limit with ⟨hfits, hresult, hwritten⟩ |
    ⟨before, line, fault, hline, hresult, hfails⟩
  · refine ⟨?_, fun _ => ⟨hresult, hwritten⟩, fun hnot => absurd hfits hnot⟩
    rw [hresult]
    cases w.fault <;> simp [hfits]
  · have hnot := hfails.not_fits d limit hline
    refine ⟨?_, fun hfits => absurd hfits hnot, fun _ =>
      ⟨before, line, fault, hline, hresult, hfails⟩⟩
    rw [hresult]
    simp [hnot]

/-- The source breaks off in its third line, but before that the output is full. -/
def Streams.stalled : Streams where
  text := [49, newline, 50, newline, 51]
  stop := some (⟨.connectionReset, none⟩, [])
  outRoom := some (3, .stalledWriter)
  errRoom := none
  uninterrupted := by
    rintro f more ⟨⟩
    decide

theorem run_stalled :
    (Streams.stalled.run .standard 0).1 = .error .stalledWriter ∧
      (Streams.stalled.run .standard 0).2.out.written = "1\n2".toUTF8 := by
  have hnot : ¬ Streams.stalled.Fits (unhindered .standard 0 Streams.stalled.seen) := fun h =>
    absurd (h.1 3 .stalledWriter rfl) (by decide +kernel)
  obtain ⟨before, line, fault, -, hresult, -, ⟨n, hroom, -, hout, -⟩ | ⟨n, hroom, -⟩⟩ :=
    (run_streams .stalled .standard 0).2.2 hnot
  · obtain ⟨rfl, rfl⟩ : 3 = n ∧ Fault.stalledWriter = fault := by
      simpa [Streams.stalled] using hroom
    exact ⟨hresult, hout.trans (by decide +kernel)⟩
  · exact nomatch hroom

end Reckon.Batch
