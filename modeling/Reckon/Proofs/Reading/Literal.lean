import Reckon.Proofs.Reading.At
import Reckon.Proofs.Reading.Digits

/-!
# Reading literals

A literal in the middle of a line takes the whole run of digits in front of the reader, or stops
at the first digit that makes it too large.
-/

namespace Reckon

open Production Exact

/-! ## Readers of plain bytes in front of a run -/

namespace Reader.At

variable {r r' : Reader} {limit depth : Nat} {done rest : List UInt8}

theorem ahead_eq {ahead : List UInt8} (h : r.At limit depth done ahead) (i : Nat) :
    r.ahead i = (Source.ofBytes ahead).outcome i := by
  cases i with
  | zero =>
    show r.lookahead.outcome = _
    rw [h.lookahead]
    cases ahead <;> rfl
  | succ i =>
    show r.source.outcome i = _
    rw [h.source]
    cases ahead <;> rfl

theorem faces (run : List UInt8) (h : r.At limit depth done (run ++ rest))
    (hrun : ∀ b ∈ run, Byte.IsDigit b) (hrest : (Symbol.first rest).isDigit = false) :
    r.Faces run := by
  refine .of_ahead (.ofBytes rest) (.first rest) hrun (fun i => ?_) ?_ hrest
  · rw [h.ahead_eq, Source.ofBytes, List.map_append]
    rfl
  · cases rest <;> rfl

/-- A reader that took the bytes of `run` and kept its level. -/
theorem behind (run : List UInt8) (h : r.At limit depth done (run ++ rest))
    (ht : Trace r run.length none r') (hlimit : r'.limit = r.limit) (hdepth : r'.depth = r.depth) :
    r'.At limit depth (done ++ run) rest := by
  have hnext : r'.lookahead.outcome = (Symbol.first rest).outcome := by
    rw [ht.lookahead rfl, h.ahead_eq, Source.outcome_ofBytes,
      List.getElem?_append_right (Nat.le_refl _), Nat.sub_self]
    cases rest <;> rfl
  refine ⟨?_, Symbol.outcome_injective hnext, ?_, hlimit.trans h.limit, hdepth.trans h.depth⟩
  · rw [ht.position, h.position, List.length_append]
  · rw [ht.source, h.source, Source.ofBytes, Source.ofBytes, ← List.map_drop, List.drop_tail,
      ← List.tail_drop, List.drop_left]

end Reader.At

section

variable {r : Reader} {limit depth : Nat} {done : List UInt8}
  {Q : Value → Reader → Prop} {E : Failure → Reader → Prop}

theorem meets_literal_of_lead {lead : UInt8} {run rest : List UInt8} (hlead : Byte.IsDigit lead)
    (hne : lead ≠ Byte.zero) (hrun : ∀ b ∈ run, Byte.IsDigit b)
    (hrest : (Symbol.first rest).isDigit = false)
    (h : r.At limit depth done (lead :: (run ++ rest)))
    (hQ : ∀ (v : Value) (r' : Reader), v.toInt = Byte.number (lead :: run) →
      r'.At limit depth (done ++ lead :: run) rest → Q v r')
    (hE : ∀ u b more r', run = u ++ b :: more → ¬ InRange (Byte.number (lead :: u ++ [b])) →
      r'.At limit depth (done ++ lead :: u) (b :: more ++ rest) →
      E (.arithmetic (.overflow .literal) ⟨0, done.length⟩) r') :
    literal.Meets r Q E := by
  have hfaces : r.Faces (lead :: run) :=
    h.faces (lead :: run) (by simpa using ⟨hlead, hrun⟩) hrest
  refine (Keeps.simulation.literal r).meets (meets_literal_facing hne hfaces
    (Q := fun v r' => v.toInt = Byte.number (lead :: run) ∧
      Trace r (lead :: run).length none r')
    (E := fun e r' => ∃ u b more, run = u ++ b :: more ∧
      ¬ InRange (Byte.number (lead :: u ++ [b])) ∧ Trace r (lead :: u).length none r' ∧
      e = .arithmetic (.overflow .literal) r.position)
    (fun v r' hv ht => ⟨hv, ht⟩)
    (fun u b more r' hmore _ hlarge ht => ⟨u, b, more, hmore, hlarge, ht, rfl⟩)) ?_ ?_
  · rintro v r' hlimit hdepth ⟨hv, ht⟩
    exact hQ v r' hv (h.behind (lead :: run) ht hlimit hdepth)
  · rintro e r' hlimit hdepth ⟨u, b, more, rfl, hlarge, ht, rfl⟩
    rw [h.position]
    refine hE u b more r' rfl hlarge (Reader.At.behind (lead :: u) ?_ ht hlimit hdepth)
    simpa using h

theorem meets_literal_of_zero {rest : List UInt8} (h : r.At limit depth done (Byte.zero :: rest))
    (hQ : (Symbol.first rest).isDigit = false →
      ∀ r', r'.At limit depth (done ++ [Byte.zero]) rest → Q 0 r')
    (hE : (Symbol.first rest).isDigit = true →
      ∀ r', r'.At limit depth (done ++ [Byte.zero]) rest → E (r'.refusal .literalEnd) r') :
    literal.Meets r Q E := by
  obtain ⟨run, rest, rfl, hrun, hrest⟩ := Numeral.exists_run rest
  have hzero : Byte.IsDigit Byte.zero := by decide
  have hfaces : r.Faces (Byte.zero :: run) :=
    h.faces (Byte.zero :: run) (by simpa using ⟨hzero, hrun⟩) hrest
  refine (Keeps.simulation.literal r).meets (meets_literal_facing_zero hfaces
    (Q := fun v r' => v = 0 ∧ run = [] ∧ Trace r 1 none r')
    (E := fun e r' => run ≠ [] ∧ Trace r 1 none r' ∧ e = r'.refusal .literalEnd)
    (fun hnil r' ht => ⟨rfl, hnil, ht⟩) (fun hcons r' ht => ⟨hcons, ht, rfl⟩)) ?_ ?_
  · rintro v r' hlimit hdepth ⟨rfl, rfl, ht⟩
    exact hQ hrest r' (h.behind [Byte.zero] ht hlimit hdepth)
  · rintro e r' hlimit hdepth ⟨hne, ht, rfl⟩
    obtain ⟨c, more, rfl⟩ := List.exists_cons_of_ne_nil hne
    have hdigit : (Symbol.first (c :: more ++ rest)).isDigit = true := by simpa using hrun c
    exact hE hdigit r' (h.behind [Byte.zero] ht hlimit hdepth)

end

/-! ## Whole numerals -/

theorem follows_literal {n : Numeral} {r : Reader} {limit depth : Nat} {done rest : List UInt8}
    (hrest : (Symbol.first rest).isDigit = false)
    (h : r.At limit depth done (n.bytes ++ rest)) :
    literal.Meets r
      (fun v r' => fit .literal n.value = .ok v.toInt ∧ r'.At limit depth (done ++ n.bytes) rest)
      fun e _ => ∃ cause, fit .literal n.value = .error cause ∧
        e = .arithmetic cause ⟨0, done.length⟩ := by
  cases n with
  | zero =>
    have h : r.At limit depth done (Byte.zero :: rest) := h
    apply meets_literal_of_zero h (fun _ r' h' => ⟨rfl, h'⟩)
    intro hdigit
    rw [hrest] at hdigit
    exact absurd hdigit (by decide)
  | digits lead more hlead hne hmore =>
    refine meets_literal_of_lead hlead hne hmore hrest h ?_ ?_
    · intro v r' hv h'
      refine ⟨?_, h'⟩
      rw [fit_eq_ok_iff]
      exact ⟨hv.symm, v.inRange⟩
    · rintro u b tail r' rfl hrange -
      refine ⟨_, ?_, rfl⟩
      rw [fit_eq_error_iff]
      refine ⟨?_, rfl⟩
      have heq : lead :: (u ++ b :: tail) = lead :: u ++ [b] ++ tail := by simp
      rw [Numeral.value, Numeral.bytes, heq]
      exact not_inRange_number_append hrange tail

end Reckon
