import Mathlib.Order.Bounds.Basic
import Reckon.Proofs.Production.Traced
import Reckon.Proofs.Syntax.Decimal
import Reckon.Proofs.Value.Exact

/-!
# Runs of digits

In front of a run of digits a literal takes the whole run, or it stops at the first digit that
makes it too large. A run that starts with `0` ends there. Where the reader comes from and what
else the source has to give does not matter.
-/

namespace Reckon

open Production Exact

namespace Byte

theorem IsDigit.ne_newline {b : UInt8} (h : IsDigit b) : b ≠ newline := by
  rintro rfl
  revert h
  decide

theorem digit_lt {b : UInt8} (h : IsDigit b) : digit b < 10 := by
  have := UInt8.le_iff_toNat_le.mp h.2
  have h57 : nine.toNat = 57 := rfl
  unfold digit
  omega

theorem digit_pos {b : UInt8} (h : IsDigit b) (hb : b ≠ zero) : 0 < digit b := by
  have hle := UInt8.le_iff_toNat_le.mp h.1
  have h48 : zero.toNat = 48 := rfl
  have hne : b.toNat ≠ 48 := fun h => hb (UInt8.toNat_inj.mp (h.trans h48.symm))
  unfold digit
  omega

end Byte

theorem not_inRange_number_append {bytes : List UInt8} (h : ¬ InRange (Byte.number bytes))
    (more : List UInt8) : ¬ InRange (Byte.number (bytes ++ more)) := by
  have hle := Byte.number_le_append bytes more
  unfold InRange at *
  omega

/-! ## In front of a run -/

/-- The digits of `run` are ahead, the first of them in hand, and then a symbol that is none. -/
structure Reader.Faces (r : Reader) (run : List UInt8) : Prop where
  digits : ∀ b ∈ run, Byte.IsDigit b
  ahead : ∀ i b, run[i]? = some b → r.ahead i = .byte b
  behind : ∃ s : Symbol, r.ahead run.length = s.outcome ∧ s.isDigit = false

namespace Reader.Faces

variable {r r' : Reader} {b : UInt8} {run : List UInt8}

theorem of_ahead (rest : Source) (s : Symbol) (hdigits : ∀ b ∈ run, Byte.IsDigit b)
    (hahead : ∀ i, r.ahead i = Source.outcome (run.map .byte ++ rest) i)
    (hs : rest.outcome 0 = s.outcome) (hdigit : s.isDigit = false) : r.Faces run := by
  refine ⟨hdigits, fun i b hi => ?_, s, ?_, hdigit⟩
  · have hlt : i < (run.map Outcome.byte).length := by
      simpa using (List.getElem?_eq_some_iff.mp hi).1
    rw [hahead, Source.outcome, List.getD_eq_getElem?_getD, List.getElem?_append_left hlt,
      List.getElem?_map, hi]
    rfl
  · have hdrop : (run.map Outcome.byte ++ rest).drop run.length = rest := List.drop_left' (by simp)
    rw [hahead, ← hs, ← hdrop, Source.outcome_drop, Nat.add_zero, hdrop]

theorem lookahead (h : r.Faces (b :: run)) : r.lookahead = .byte b :=
  Symbol.outcome_injective (h.ahead 0 b rfl)

theorem digit?_lookahead (h : r.Faces (b :: run)) :
    r.lookahead.digit? = some (Byte.digit b) := by
  rw [h.lookahead, Symbol.digit?_byte, if_pos (h.digits b List.mem_cons_self)]

theorem isDigit_lookahead (h : r.Faces []) : r.lookahead.isDigit = false := by
  obtain ⟨s, hs, hdigit⟩ := h.behind
  rwa [Symbol.outcome_injective hs]

/-- Behind a digit there is another symbol, and not a fault. -/
theorem exists_next (h : r.Faces (b :: run)) : ∃ s : Symbol, r.source.outcome 0 = s.outcome := by
  cases run with
  | nil =>
    obtain ⟨s, hs, -⟩ := h.behind
    exact ⟨s, hs⟩
  | cons c run => exact ⟨.byte c, h.ahead 1 c rfl⟩

theorem step (h : r.Faces (b :: run)) (ht : Trace r 1 none r') : r'.Faces run := by
  refine ⟨fun c hc => h.digits c (List.mem_cons_of_mem _ hc), fun i c hi => ?_, ?_⟩
  · rw [ht.ahead_eq, Nat.add_comm]
    exact h.ahead (i + 1) c (by simpa using hi)
  · rw [ht.ahead_eq, Nat.add_comm]
    exact h.behind

end Reader.Faces

section

variable {r : Reader} {b : UInt8} {run : List UInt8} {E : Failure → Reader → Prop}

theorem meets_advance_facing {Q : Symbol → Reader → Prop} (h : r.Faces (b :: run))
    (hQ : ∀ r', Trace r 1 none r' → Q (.byte b) r') : advance.Meets r Q E := by
  have hb : r.lookahead.isTerminator = false := by
    simpa [h.lookahead, Symbol.isTerminator] using (h.digits b List.mem_cons_self).ne_newline
  obtain ⟨s, hs⟩ := h.exists_next
  have hfault (f : Fault) (hf : r.source.outcome 0 = .fault f) : f.kind ≠ .interrupted :=
    absurd (hs.symm.trans hf) (s.outcome_ne_fault f)
  have htrace := (TracedBy.advance hb hfault).trace
  have hrun := run_advance_eq hfault
  rw [hs, Symbol.read_outcome] at hrun
  rw [hrun] at htrace
  unfold Meets
  rw [hrun, h.lookahead]
  exact hQ _ htrace

/-- The digits of `run` come on top of those of `taken`, which `v` stands for. -/
theorem meets_digits {start : Position} {taken : List UInt8} {v : Value}
    {Q : Value → Reader → Prop} (hv : v.toInt = Byte.number taken) (h : r.Faces run)
    (hQ : ∀ (v : Value) (r' : Reader), v.toInt = Byte.number (taken ++ run) →
      Trace r run.length none r' → Q v r')
    (hE : ∀ u b more r', run = u ++ b :: more → InRange (Byte.number (taken ++ u)) →
      ¬ InRange (Byte.number (taken ++ u ++ [b])) → Trace r u.length none r' →
      E (.arithmetic (.overflow .literal) start) r') :
    (repeatWhile (digitStep start) (digitStep_moves start) v).Meets r Q E := by
  induction run generalizing taken v r with
  | nil =>
    have hnone : r.lookahead.digit? = none := by
      simpa [Symbol.isDigit] using h.isDigit_lookahead
    rw [meets_repeatWhile]
    simp only [digitStep, meets_bind, meets_lookahead, hnone, meets_pure]
    exact hQ v r (by simpa using hv) (.refl r)
  | cons b run ih =>
    have hexact := Value.appendDigit_exact v (Byte.digit b) (by omega)
    rw [hv, show 10 * (Byte.number taken : Int) + (Byte.digit b : Nat) =
      (Byte.number (taken ++ [b]) : Nat) by rw [Byte.number_append_one]; push_cast; rfl] at hexact
    rw [meets_repeatWhile]
    simp only [digitStep, meets_bind, meets_lookahead, h.digit?_lookahead]
    rcases hlonger : v.appendDigit (Byte.digit b) with e | longer
    · rw [hlonger] at hexact
      obtain ⟨hrange, rfl⟩ := (fit_eq_error_iff ..).mp hexact.symm
      rw [meets_located_error]
      refine hE [] b run r rfl ?_ (by simpa using hrange) (.refl r)
      rw [List.append_nil, ← hv]
      exact v.inRange
    · rw [hlonger] at hexact
      obtain ⟨hi, -⟩ := (fit_eq_ok_iff ..).mp hexact.symm
      rw [meets_located_ok]
      apply meets_advance_facing h
      intro r' ht
      refine ih hi.symm (h.step ht) ?_ ?_
      · intro v r'' hv ht'
        refine hQ v r'' (by simpa using hv) ?_
        rw [List.length_cons, Nat.add_comm]
        exact ht.trans ht'
      · intro u c more r'' hmore hrange hlarge ht'
        refine hE (b :: u) c more r'' (by simp [hmore]) (by simpa using hrange)
          (by simpa using hlarge) ?_
        rw [List.length_cons, Nat.add_comm]
        exact ht.trans ht'

variable {Q : Value → Reader → Prop}

theorem meets_literal_facing (hb : b ≠ Byte.zero) (h : r.Faces (b :: run))
    (hQ : ∀ (v : Value) (r' : Reader), v.toInt = Byte.number (b :: run) →
      Trace r (b :: run).length none r' → Q v r')
    (hE : ∀ u c more r', run = u ++ c :: more → InRange (Byte.number (b :: u)) →
      ¬ InRange (Byte.number (b :: u ++ [c])) → Trace r (b :: u).length none r' →
      E (.arithmetic (.overflow .literal) r.position) r') :
    literal.Meets r Q E := by
  have hdigit := h.digits b List.mem_cons_self
  obtain ⟨d, hd⟩ : ∃ d, Byte.digit b = d + 1 :=
    ⟨Byte.digit b - 1, by have := Byte.digit_pos hdigit hb; omega⟩
  have hlt := Byte.digit_lt hdigit
  have hlook := h.digit?_lookahead
  rw [hd] at hlook
  have hv : (Int64.ofNat (d + 1)).toInt = Byte.number [b] := by
    rw [Int64.toInt_ofNat_of_lt (by omega), ← hd]
    simp [Byte.number]
  unfold literal
  simp only [meets_bind, meets_position, meets_lookahead, hlook]
  apply meets_advance_facing h
  intro r' ht
  refine meets_digits hv (h.step ht) ?_ ?_
  · intro v r'' hv ht'
    simp only [meets_note, meets_pure]
    refine hQ v _ (by simpa using hv) ?_
    rw [List.length_cons, Nat.add_comm]
    exact (ht.trans ht').log _
  · intro u c more r'' hmore hrange hlarge ht'
    refine hE u c more r'' hmore (by simpa using hrange) (by simpa using hlarge) ?_
    rw [List.length_cons, Nat.add_comm]
    exact ht.trans ht'

theorem meets_literal_facing_zero (h : r.Faces (Byte.zero :: run))
    (hQ : run = [] → ∀ r', Trace r 1 none r' → Q 0 r')
    (hE : run ≠ [] → ∀ r', Trace r 1 none r' → E (r'.refusal .literalEnd) r') :
    literal.Meets r Q E := by
  have hlook : r.lookahead.digit? = some 0 := h.digit?_lookahead
  unfold literal
  simp only [meets_bind, meets_position, meets_lookahead, hlook]
  apply meets_advance_facing h
  intro r' ht
  have hnext := h.step ht
  cases run with
  | nil =>
    rw [hnext.isDigit_lookahead]
    exact hQ rfl r' ht
  | cons c run =>
    rw [Symbol.isDigit, hnext.digit?_lookahead]
    exact hE (List.cons_ne_nil c run) r' ht

end

/-! ## One answer for each run -/

section

open Byte

variable {r : Reader} {lead : UInt8} {run : List UInt8}

theorem inRange_number_iff : InRange (number run) ↔ number run ≤ 2 ^ 63 - 1 := by
  unfold InRange
  omega

theorem run_literal_zero (h : r.Faces [zero]) :
    ∃ s, literal.run r = (.ok 0, s) ∧ Trace r 1 none s := by
  obtain ⟨v, s, hrun, rfl, ht⟩ := exists_ok_of_meets (meets_literal_facing_zero h
    (Q := fun v s => v = 0 ∧ Trace r 1 none s) (fun _ s ht => ⟨rfl, ht⟩) (fun h => absurd rfl h))
  exact ⟨s, hrun, ht⟩

theorem run_literal_zero_cons {c : UInt8} (h : r.Faces (zero :: c :: run)) :
    ∃ s, literal.run r = (.error (.refused ⟨.literalEnd, .byte c,
      ⟨r.position.line, r.position.column + 1⟩⟩), s) ∧ Trace r 1 none s := by
  obtain ⟨e, s, hrun, rfl, ht⟩ := exists_error_of_meets (meets_literal_facing_zero h
    (E := fun e s => e = s.refusal .literalEnd ∧ Trace r 1 none s) nofun
    (fun _ s ht => ⟨rfl, ht⟩))
  refine ⟨s, ?_, ht⟩
  rw [hrun, Reader.refusal, (h.step ht).lookahead, ht.position]

theorem run_literal_of_le (h : r.Faces (lead :: run)) (hlead : lead ≠ zero)
    (hle : number (lead :: run) ≤ 2 ^ 63 - 1) :
    ∃ v s, literal.run r = (.ok v, s) ∧ v.toInt = number (lead :: run) ∧
      Trace r (lead :: run).length none s := by
  refine exists_ok_of_meets (meets_literal_facing hlead h (fun v s hv ht => ⟨hv, ht⟩) ?_)
  rintro u c more s rfl - hlarge -
  have htotal := not_inRange_number_append hlarge more
  rw [inRange_number_iff] at htotal
  simp at htotal
  omega

/-- A number that gets too large with `c` does so there for the first time. -/
theorem isLeast_too_large {front more : List UInt8} {c : UInt8} (hfront : InRange (number front))
    (hlarge : ¬ InRange (number (front ++ [c]))) :
    IsLeast {k | 2 ^ 63 - 1 < number ((front ++ c :: more).take (k + 1))} front.length := by
  rw [inRange_number_iff] at hfront hlarge
  constructor
  · have htake : (front ++ c :: more).take (front.length + 1) = front ++ [c] := by
      rw [List.append_cons, List.take_left' (by simp)]
    show 2 ^ 63 - 1 < number ((front ++ c :: more).take (front.length + 1))
    rw [htake]
    omega
  · intro k (hk : 2 ^ 63 - 1 < number ((front ++ c :: more).take (k + 1)))
    by_contra hlt
    rw [List.take_append_of_le_length (by omega)] at hk
    have hle := number_le_append (front.take (k + 1)) (front.drop (k + 1))
    rw [List.take_append_drop] at hle
    omega

theorem run_literal_of_lt (h : r.Faces (lead :: run)) (hlead : lead ≠ zero)
    (hlt : 2 ^ 63 - 1 < number (lead :: run)) :
    ∃ k s, literal.run r = (.error (.arithmetic (.overflow .literal) r.position), s) ∧
      Trace r k none s ∧ IsLeast {k | 2 ^ 63 - 1 < number ((lead :: run).take (k + 1))} k := by
  have hmeets : literal.Meets r (fun _ _ => False) fun e s =>
      e = .arithmetic (.overflow .literal) r.position ∧ ∃ k, Trace r k none s ∧
        IsLeast {k | 2 ^ 63 - 1 < number ((lead :: run).take (k + 1))} k := by
    refine meets_literal_facing hlead h (fun v s hv _ => ?_) ?_
    · have hrange := v.inRange
      rw [hv, inRange_number_iff] at hrange
      omega
    · rintro u c more s rfl hrange hlarge ht
      exact ⟨rfl, _, ht, isLeast_too_large hrange hlarge⟩
  obtain ⟨e, s, hrun, rfl, k, ht, hk⟩ := exists_error_of_meets hmeets
  exact ⟨k, s, hrun, ht, hk⟩

/-- The text of a value is read back. -/
theorem run_literal_bytes {v : Value} (hv : 0 ≤ v.toInt) (h : r.Faces v.bytes) :
    ∃ s, literal.run r = (.ok v, s) ∧ Trace r v.bytes.length none s := by
  obtain ⟨numeral, hbytes, hvalue⟩ := Value.exists_numeral hv
  rw [← hbytes] at h ⊢
  cases numeral with
  | zero =>
    obtain rfl : v = 0 := Int64.toInt_inj.mp hvalue.symm
    exact run_literal_zero h
  | digits lead more _ hlead _ =>
    have hle : number (lead :: more) ≤ 2 ^ 63 - 1 := by
      have hrange := v.inRange
      rw [← hvalue] at hrange
      exact inRange_number_iff.mp hrange
    obtain ⟨w, s, hrun, hw, ht⟩ := run_literal_of_le h hlead hle
    obtain rfl : w = v := Int64.toInt_inj.mp (hw.trans hvalue)
    exact ⟨s, hrun, ht⟩

/-- In front of a run of digits a literal ends in one way: with the value of the run and behind
it, behind a zero that more digits follow, or in front of the first digit that makes the value too
large. The text of a value is such a run, and gives the value again. -/
theorem literal_reads_run (h : r.Faces run) :
    (run = [zero] → ∃ s, literal.run r = (.ok 0, s) ∧ Trace r 1 none s) ∧
    (∀ c more, run = zero :: c :: more →
      ∃ s, literal.run r = (.error (.refused ⟨.literalEnd, .byte c,
        ⟨r.position.line, r.position.column + 1⟩⟩), s) ∧ Trace r 1 none s) ∧
    (∀ lead more, run = lead :: more → lead ≠ zero →
      (number run ≤ 2 ^ 63 - 1 →
        ∃ v s, literal.run r = (.ok v, s) ∧ v.toInt = number run ∧
          Trace r run.length none s) ∧
      (2 ^ 63 - 1 < number run →
        ∃ k s, literal.run r = (.error (.arithmetic (.overflow .literal) r.position), s) ∧
          Trace r k none s ∧ IsLeast {k | 2 ^ 63 - 1 < number (run.take (k + 1))} k)) ∧
    (∀ v : Value, 0 ≤ v.toInt → run = v.bytes →
      ∃ s, literal.run r = (.ok v, s) ∧ Trace r run.length none s ∧
        s.lookahead.isDigit = false) := by
  refine ⟨?_, ?_, ?_, ?_⟩
  · rintro rfl
    exact run_literal_zero h
  · rintro c more rfl
    exact run_literal_zero_cons h
  · rintro lead more rfl hlead
    exact ⟨run_literal_of_le h hlead, run_literal_of_lt h hlead⟩
  · rintro v hv rfl
    obtain ⟨s, hrun, ht⟩ := run_literal_bytes hv h
    refine ⟨s, hrun, ht, ?_⟩
    obtain ⟨symbol, hsymbol, hdigit⟩ := h.behind
    rwa [Symbol.outcome_injective ((ht.lookahead rfl).trans hsymbol)]

/-- A reader on its fourth line, with `9223372036854775808+` ahead. -/
def Reader.beforeTooLarge : Reader where
  source := .ofBytes [50, 50, 51, 51, 55, 50, 48, 51, 54, 56, 53, 52, 55, 55, 53, 56, 48, 56, plus]
  lookahead := .byte 57
  position := ⟨3, 7⟩
  depth := 2
  limit := 5
  tally := ⟨41, 40, 2⟩
  log := #[]

theorem literal_reads_tooLarge :
    Reader.beforeTooLarge.Faces
      [57, 50, 50, 51, 51, 55, 50, 48, 51, 54, 56, 53, 52, 55, 55, 53, 56, 48, 56] ∧
    ∃ k s, literal.run Reader.beforeTooLarge =
      (.error (.arithmetic (.overflow .literal) ⟨3, 7⟩), s) ∧
        Trace Reader.beforeTooLarge k none s ∧
          IsLeast {k | 2 ^ 63 - 1 < number (List.take (k + 1)
            [57, 50, 50, 51, 51, 55, 50, 48, 51, 54, 56, 53, 52, 55, 55, 53, 56, 48, 56])} k := by
  have hfaces : Reader.beforeTooLarge.Faces
      [57, 50, 50, 51, 51, 55, 50, 48, 51, 54, 56, 53, 52, 55, 55, 53, 56, 48, 56] :=
    .of_ahead [.byte plus] .plus (by simp [Byte.IsDigit, Byte.zero, Byte.nine])
      (fun i => by cases i <;> rfl) rfl (by decide)
  exact ⟨hfaces, ((literal_reads_run hfaces).2.2.1 57 _ rfl (by decide)).2 (by decide)⟩

end

end Reckon
