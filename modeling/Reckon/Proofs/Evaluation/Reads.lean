import Reckon.Proofs.Production.Traced
import Reckon.Proofs.Reading.At

/-!
# What an evaluation reads

An evaluation reads to the end of its expression, or to the point where it fails. It never looks
further, so a fault behind that point changes nothing.
-/

namespace Reckon

open Production

/-- An evaluation of `source` takes its first `k` outcomes. -/
structure Takes (d : Dialect) (limit : Nat) (source : Source) (k : Nat) : Prop where
  pos : 0 < k
  rest : (d.grammar.evaluate limit source).2.source = source.drop k
  /-- Only the last outcome can be something else than a byte of the expression. -/
  plain : ∀ i, i + 1 < k → (source.outcome i).isPlain = true
  position : (d.grammar.evaluate limit source).2.position = ⟨0, k - 1⟩
  consumed : (d.grammar.evaluate limit source).2.tally.consumed + 1 = k
  reads : (d.grammar.evaluate limit source).2.tally.reads +
    (if (faultOf (d.grammar.evaluate limit source).1).isSome then 1 else 0) = k
  fault : ∀ f, (d.grammar.evaluate limit source).1 = .error (.unreadable f) ↔
    source.outcome (k - 1) = .fault f
  lookahead : faultOf (d.grammar.evaluate limit source).1 = none →
    (d.grammar.evaluate limit source).2.lookahead.outcome = source.outcome (k - 1)
  same : ∀ source' : Source, (∀ i < k, source'.outcome i = source.outcome i) →
    d.grammar.evaluate limit source' = ((d.grammar.evaluate limit source).1,
      (d.grammar.evaluate limit source).2.reading (source'.drop k))
  /-- What is behind an opening does not matter if the level is too deep. -/
  blind : ∀ n place, (d.grammar.evaluate limit source).1 = .error (.tooDeep n place) →
    ∀ source' : Source, (∀ i, i + 1 < k → source'.outcome i = source.outcome i) →
      (∀ f, source'.outcome (k - 1) ≠ .fault f) →
        (d.grammar.evaluate limit source').1 = .error (.tooDeep n place)

/-- With its first symbol in hand. -/
def Reader.primed (limit : Nat) (s : Symbol) (source : Source) : Reader where
  source := source
  lookahead := s
  position := .start
  depth := 0
  limit := limit
  tally := ⟨1, 0, 0⟩
  log := #[.read s .start]

variable {d : Dialect} {limit : Nat} {source : Source}

theorem evaluate_of_fault {f : Fault} (h : source.outcome 0 = .fault f)
    (hf : f.kind ≠ .interrupted) :
    d.grammar.evaluate limit source =
      (.error (.unreadable f), (Reader.fresh limit source).reading (source.drop 1)) := by
  have hprime := run_prime_eq (r := .fresh limit source) fun f' hf' => by
    obtain rfl : f = f' := Outcome.fault.inj (h.symm.trans hf')
    exact hf
  rw [show (Reader.fresh limit source).source.outcome 0 = .fault f from h] at hprime
  exact run_bind_error hprime

theorem evaluate_of_symbol {s : Symbol} (h : source.outcome 0 = s.outcome) :
    d.grammar.evaluate limit source = d.grammar.whole.run (.primed limit s (source.drop 1)) := by
  have hprime := run_prime_eq (r := .fresh limit source) fun f hf => by
    cases s <;> exact nomatch h.symm.trans hf
  rw [show (Reader.fresh limit source).source.outcome 0 = s.outcome from h] at hprime
  cases s <;> exact run_bind_ok hprime

theorem evaluate_ofBytes (d : Dialect) (limit : Nat) (text : List UInt8) :
    d.grammar.evaluate limit (.ofBytes text) =
      d.grammar.whole.run (.primed limit (.first text) (.ofBytes text.tail)) := by
  cases text <;> exact evaluate_of_symbol rfl

theorem Reader.primed_ahead {s : Symbol} (h : source.outcome 0 = s.outcome) (i : Nat) :
    (Reader.primed limit s (source.drop 1)).ahead i = source.outcome i := by
  cases i with
  | zero => exact h.symm
  | succ i => exact (Source.outcome_drop source 1 i).trans (by rw [Nat.add_comm])

theorem takes_of_fault {f : Fault} (h : source.outcome 0 = .fault f)
    (hf : f.kind ≠ .interrupted) : Takes d limit source 1 := by
  have hevaluate := @evaluate_of_fault d limit _ _ h hf
  constructor
  case pos => exact Nat.one_pos
  case plain =>
    intro i hi
    omega
  case fault =>
    intro f'
    rw [hevaluate, h]
    simp
  case lookahead =>
    rw [hevaluate]
    exact fun hnone => nomatch hnone
  case blind =>
    rw [hevaluate]
    exact fun n place hrun => nomatch hrun
  case same =>
    intro source' hsource
    rw [hevaluate, evaluate_of_fault ((hsource 0 Nat.one_pos).trans h) hf]
    rfl
  all_goals
    rw [hevaluate]
    rfl

theorem takes_of_traced {s : Symbol} {k : Nat} (h : source.outcome 0 = s.outcome)
    (htraced : TracedBy d.grammar.whole (.primed limit s (source.drop 1)) k) :
    Takes d limit source (k + 1) := by
  have htrace := htraced.trace
  have hahead := @Reader.primed_ahead limit _ _ h
  have hevaluate := @evaluate_of_symbol d limit _ _ h
  rw [← hevaluate] at htrace
  constructor
  case pos => exact Nat.succ_pos k
  case rest => rw [htrace.source, Nat.add_comm]; exact List.drop_drop
  case plain =>
    intro i hi
    rw [← hahead]
    exact htrace.plain i (by omega)
  case position => rw [htrace.position]; exact congrArg _ (Nat.zero_add k)
  case consumed => rw [htrace.consumed]; exact congrArg _ (Nat.zero_add k)
  case reads => rw [htrace.reads]; exact Nat.add_comm 1 k
  case fault =>
    intro f
    rw [← faultOf_eq_some_iff, show k + 1 - 1 = k from rfl, ← hahead]
    constructor
    · intro hfault
      exact (htrace.met f hfault).2
    · intro hk
      rcases hfault : faultOf (d.grammar.evaluate limit source).1 with _ | g
      · have hsymbol := htrace.lookahead hfault
        rw [hk] at hsymbol
        exact absurd hsymbol (Symbol.outcome_ne_fault _ f)
      · have hmet := (htrace.met g hfault).2
        rw [hk] at hmet
        rw [Outcome.fault.inj hmet]
  case lookahead => rw [← hahead]; exact htrace.lookahead
  case same =>
    intro source' hsource
    have hsame := htraced.same (source'.drop 1) fun i hi => by
      show _ = Source.outcome (source.drop 1) i
      rw [Source.outcome_drop, Source.outcome_drop, hsource _ (by omega)]
    rw [evaluate_of_symbol ((hsource 0 (by omega)).trans h), hevaluate]
    rw [List.drop_drop, Nat.add_comm] at hsame
    exact hsame
  case blind =>
    intro n place hrun source' hsource hfault
    rw [hevaluate] at hrun
    obtain ⟨hpos, hblind⟩ := htraced.blind n place hrun
    rw [evaluate_of_symbol ((hsource 0 (by omega)).trans h)]
    refine hblind (source'.drop 1) (fun i hi => ?_) fun f => ?_
    · show _ = Source.outcome (source.drop 1) i
      rw [Source.outcome_drop, Source.outcome_drop, hsource _ (by omega)]
    · rw [Source.outcome_drop, show 1 + (k - 1) = k by omega]
      exact hfault f

/-- If nothing has to be tried again, an evaluation takes some outcomes and depends on no others. -/
theorem exists_takes (d : Dialect) (limit : Nat) (h : source.Uninterrupted) :
    ∃ k, Takes d limit source k := by
  rcases hread : (source.outcome 0).read with f | s
  · have hfault := Outcome.eq_fault_of_read hread
    exact ⟨1, takes_of_fault hfault (h.outcome hfault)⟩
  · obtain ⟨k, htraced⟩ := @Simulation.whole _ Traced.simulation d Traced.note _ (Traced.expression d _)
      (show (Reader.primed limit s (source.drop 1)).source.Uninterrupted from h.drop 1)
      (show limit ≤ 0 + limit by omega)
    exact ⟨k + 1, takes_of_traced (Outcome.eq_of_read hread).symm htraced⟩

/-! ## Plain texts -/

/-- Of a text nothing is taken behind the symbol in hand. -/
theorem Takes.length_eq {before ahead : List UInt8} {b : UInt8} {k : Nat}
    (h : Takes d limit (.ofBytes (before ++ b :: ahead)) k)
    (hlookahead : (d.grammar.evaluate limit (.ofBytes (before ++ b :: ahead))).2.lookahead =
      .byte b)
    (hsource : (d.grammar.evaluate limit (.ofBytes (before ++ b :: ahead))).2.source =
      .ofBytes ahead) : k = before.length + 1 := by
  have hnone : faultOf (d.grammar.evaluate limit (.ofBytes (before ++ b :: ahead))).1 = none := by
    refine Option.eq_none_iff_forall_ne_some.mpr fun f hf => ?_
    have hfault := (h.fault f).mp (faultOf_eq_some_iff.mp hf)
    exact Source.outcome_ofBytes_ne_fault _ _ f hfault
  have hlast := h.lookahead hnone
  have hrest := congrArg List.length h.rest
  -- Behind the text there would be the end of the input in hand.
  have hlt : k - 1 < (before ++ b :: ahead).length := by
    refine Nat.lt_of_not_le fun hle => ?_
    rw [hlookahead, Source.outcome_ofBytes, List.getElem?_eq_none hle] at hlast
    exact absurd hlast (by simp [Symbol.outcome])
  have hpos := h.pos
  rw [hsource] at hrest
  simp only [Source.ofBytes, List.length_map, List.length_drop, List.length_append,
    List.length_cons] at hrest hlt
  omega

/-! ## Whole lines -/

/-- How many bytes there are before the first newline, end of the input or fault. -/
def Source.lineLength (source : Source) : Nat := (source.takeWhile Outcome.isPlain).length

theorem Source.lineLength_eq {source : Source} {n : Nat}
    (h : ∀ i < n, (source.outcome i).isPlain = true) (hn : (source.outcome n).isPlain = false) :
    source.lineLength = n := by
  unfold lineLength
  induction n generalizing source with
  | zero =>
    cases source with
    | nil => rfl
    | cons o rest => rw [List.takeWhile_cons_of_neg (by simpa [outcome] using hn)]; rfl
  | succ n ih =>
    cases source with
    | nil => exact absurd (h 0 (Nat.succ_pos n)) (by decide)
    | cons o rest =>
      rw [List.takeWhile_cons_of_pos (show o.isPlain = true from h 0 (Nat.succ_pos n))]
      rw [List.length_cons, ih (fun i hi => h (i + 1) (by omega)) hn]

theorem Symbol.outcome_of_isTerminator {s : Symbol} (h : s.isTerminator = true) :
    s.outcome = .byte Byte.newline ∨ s.outcome = .finish := by
  cases s with
  | byte b =>
    obtain rfl : b = Byte.newline := by simpa [isTerminator] using h
    exact .inl rfl
  | finish => exact .inr rfl

theorem ends_of_evaluate {v : Value} {tally : Tally}
    (h : (d.grammar.evaluate limit source).1 = .ok (v, tally)) :
    (d.grammar.evaluate limit source).2.lookahead.isTerminator = true ∧
      (d.grammar.evaluate limit source).2.tally = tally := by
  have hmeets : d.grammar.evaluation.Meets (.fresh limit source)
      (fun out r => r.lookahead.isTerminator = true ∧ r.tally = out.2) fun _ _ => True := by
    unfold Grammar.evaluation Grammar.whole
    have htrivial {α : Type} (p : Production α) (r : Reader) :
        p.Meets r (fun _ _ => True) fun _ _ => True := meets_either_iff.mpr trivial
    rw [meets_bind]
    apply meets_mono (htrivial _ _) (fun _ r _ => ?_) fun _ _ _ => trivial
    rw [meets_bind]
    apply meets_mono (htrivial _ _) (fun _ r _ => ?_) fun _ _ _ => trivial
    rw [meets_bind]
    by_cases hend : r.lookahead.isTerminator = true
    · exact meets_requireEnd hend ⟨hend, rfl⟩
    · exact meets_requireEnd_of_not (by simpa using hend) trivial
  unfold Meets at hmeets
  rwa [show d.grammar.evaluation.run _ = ((d.grammar.evaluate limit source).1,
    (d.grammar.evaluate limit source).2) from rfl, h] at hmeets

/-- A value is only given for a whole line, and the line is read just up to its end. -/
theorem Takes.whole_line {k : Nat} (h : Takes d limit source k) {v : Value} {tally : Tally}
    (hrun : (d.grammar.evaluate limit source).1 = .ok (v, tally)) :
    tally.reads = source.lineLength + 1 ∧ tally.consumed = source.lineLength ∧
      (source.outcome source.lineLength = .byte Byte.newline ∨
        source.outcome source.lineLength = .finish) := by
  have hnone : faultOf (d.grammar.evaluate limit source).1 = none := by rw [hrun]; rfl
  obtain ⟨hterminator, htally⟩ := ends_of_evaluate hrun
  have hlast : source.outcome (k - 1) = .byte Byte.newline ∨ source.outcome (k - 1) = .finish :=
    h.lookahead hnone ▸ Symbol.outcome_of_isTerminator hterminator
  have hpos := h.pos
  have hlength : source.lineLength = k - 1 := by
    refine Source.lineLength_eq (fun i hi => h.plain i (by omega)) ?_
    rcases hlast with hlast | hlast <;> rw [hlast] <;> rfl
  have hreads := h.reads
  have hconsumed := h.consumed
  rw [hnone, htally, if_neg (by decide)] at hreads
  rw [htally] at hconsumed
  rw [hlength]
  exact ⟨by omega, by omega, hlast⟩

/-! ## Productions -/

/-- Whether it fails or not, `p` consumes what is ahead of `r` and nothing that ends an
expression. -/
def Production.StaysInLine {α : Type} (p : Production α) (r : Reader) : Prop :=
  ∃ k, Trace r k (faultOf (p.run r).1) (p.run r).2

theorem Production.Traced.staysInLine {α : Type} {p : Production α} {r : Reader}
    (h : Traced r.limit p p r) (hsource : r.source.Uninterrupted) : p.StaysInLine r := by
  obtain ⟨k, hk⟩ := h hsource (Nat.le_add_left _ _)
  exact ⟨k, hk.trace⟩

/-- An evaluation takes the outcomes of its source up to the first that is no byte of the
expression, or up to a failure before it. A fault is reported if and only if it is the last
outcome taken. -/
theorem evaluate_reads (d : Dialect) (limit : Nat) (source : Source)
    (h : source.Uninterrupted) :
    (∃ k, Takes d limit source k) ∧
      (∀ v tally, (d.grammar.evaluate limit source).1 = .ok (v, tally) →
        tally.reads = source.lineLength + 1 ∧ tally.consumed = source.lineLength ∧
          (source.outcome source.lineLength = .byte Byte.newline ∨
            source.outcome source.lineLength = .finish)) ∧
      ∀ r : Reader, r.source.Uninterrupted →
        literal.StaysInLine r ∧ d.grammar.operand.StaysInLine r ∧
          d.grammar.addend.StaysInLine r ∧ (∀ v, (d.grammar.nextAddend v).StaysInLine r) ∧
          d.grammar.expression.StaysInLine r := by
  obtain ⟨k, hk⟩ := exists_takes d limit h
  refine ⟨⟨k, hk⟩, fun v tally hrun => hk.whole_line hrun, fun r hr =>
    ⟨?_, ?_, ?_, fun v => ?_, ?_⟩⟩
  · exact (@Simulation.literal _ Traced.simulation r).staysInLine hr
  · exact (Traced.operand d r).staysInLine hr
  · exact (Traced.addend d r).staysInLine hr
  · exact (Traced.nextAddend d v r).staysInLine hr
  · exact (Traced.expression d r).staysInLine hr

/-- A line, and no way to read on behind it. -/
def Source.brokenBehindLine : Source :=
  [.byte 49, .byte Byte.newline, .fault ⟨.connectionReset, none⟩]

theorem evaluate_brokenBehindLine :
    Source.brokenBehindLine.Uninterrupted ∧
      ∀ f, (Dialect.standard.grammar.evaluate 0 .brokenBehindLine).1 ≠ .error (.unreadable f) := by
  have huninterrupted : Source.brokenBehindLine.Uninterrupted := by
    simp [Source.Uninterrupted, Source.brokenBehindLine]
  refine ⟨huninterrupted, fun f hf => ?_⟩
  obtain ⟨⟨k, hk⟩, -⟩ := evaluate_reads .standard 0 .brokenBehindLine huninterrupted
  have hfault := (hk.fault f).mp hf
  -- The newline is no byte of the expression, so it is the last outcome that can be taken.
  have hle : k ≤ 2 := Nat.le_of_not_lt fun hlt => absurd (hk.plain 1 hlt) (by decide)
  match k, hk.pos with
  | 1, _ => exact nomatch hfault
  | 2, _ => exact nomatch hfault

end Reckon
