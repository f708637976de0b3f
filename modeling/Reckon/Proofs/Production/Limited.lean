import Reckon.Proofs.Production.Meets
import Reckon.Proofs.Production.Simulation

/-!
# Runs under a lower limit

A run under a lower limit does the same as a run under a higher one, up to the first level that
only the higher one has. It fails there, and the other run records that level.
-/

namespace Reckon

namespace Reader

def capped (r : Reader) (limit : Nat) : Reader := { r with limit := limit }

theorem capped_enter (r : Reader) (limit : Nat) : (r.capped limit).enter = r.enter.capped limit :=
  rfl

theorem fetch_capped (r : Reader) (limit : Nat) :
    (r.capped limit).fetch = (r.fetch.1, r.fetch.2.capped limit) := by
  unfold fetch
  rw [show (r.capped limit).source = r.source from rfl]
  rcases r.source.next with ⟨fault | s, rest⟩ <;> rfl

theorem advance_capped (r : Reader) (limit : Nat) :
    (r.capped limit).advance = (r.advance.1, r.advance.2.capped limit) := by
  unfold advance
  rw [show (r.capped limit).release = r.release.capped limit from rfl, fetch_capped]
  rcases r.release.fetch with ⟨e | _, r'⟩ <;> rfl

theorem advance_deepest (r : Reader) : r.advance.2.tally.deepest = r.tally.deepest := by
  rw [advance_snd, fetch]
  rcases r.release.source.next with ⟨fault | s, rest⟩ <;> rfl

end Reader

namespace Production

variable {α β : Type}

/-! ## Levels are left as they were entered -/

/-- `p` ends on the level where it began, whether it fails or not, and forgets no level that was
reached before. -/
structure Keeps (p : Production α) (r : Reader) : Prop where
  limit : (p.run r).2.limit = r.limit
  depth : (p.run r).2.depth = r.depth
  deepest : r.tally.deepest ≤ (p.run r).2.tally.deepest

namespace Keeps

theorem of_tally {p : Production α} {r : Reader} (hlimit : (p.run r).2.limit = r.limit)
    (hdepth : (p.run r).2.depth = r.depth) (htally : (p.run r).2.tally = r.tally) : Keeps p r :=
  ⟨hlimit, hdepth, Nat.le_of_eq (by rw [htally])⟩

theorem bind {p : Production α} {f : α → Production β} {r : Reader} (hp : Keeps p r)
    (hf : ∀ a r', p.run r = (.ok a, r') → Keeps (f a) r') : Keeps (p >>= f) r := by
  obtain ⟨hlimit, hdepth, hdeepest⟩ := hp
  rcases hrun : p.run r with ⟨e | a, r'⟩ <;> rw [hrun] at hlimit hdepth hdeepest
  · refine ⟨?_, ?_, ?_⟩ <;> rw [run_bind_error hrun] <;> assumption
  · have h := hf a r' hrun
    refine ⟨?_, ?_, ?_⟩ <;> rw [run_bind_ok hrun]
    · exact h.limit.trans hlimit
    · exact h.depth.trans hdepth
    · exact Nat.le_trans hdeepest h.deepest

theorem meets {p : Production α} {r : Reader} {Q Q' : α → Reader → Prop}
    {E E' : Failure → Reader → Prop} (hp : Keeps p r) (h : p.Meets r Q E)
    (hQ : ∀ a r', r'.limit = r.limit → r'.depth = r.depth → Q a r' → Q' a r')
    (hE : ∀ e r', r'.limit = r.limit → r'.depth = r.depth → E e r' → E' e r') :
    p.Meets r Q' E' := by
  obtain ⟨hlimit, hdepth, -⟩ := hp
  unfold Meets at h ⊢
  generalize p.run r = result at hlimit hdepth h ⊢
  obtain ⟨e | a, r'⟩ := result
  · exact hE e r' hlimit hdepth h
  · exact hQ a r' hlimit hdepth h

theorem prime (r : Reader) : Keeps prime r := by
  have hrun : Production.prime.run r = r.fetch := rfl
  constructor <;> rw [hrun, Reader.fetch] <;> rcases r.source.next with ⟨fault | s, rest⟩ <;>
    simp

theorem advance (r : Reader) : Keeps advance r := by
  have hrun : (Production.advance.run r).2 = (Production.prime.run r.release).2 := r.advance_snd
  have h := prime r.release
  exact ⟨hrun ▸ h.limit, hrun ▸ h.depth, hrun ▸ h.deepest⟩

theorem overrun (r : Reader) : Keeps (overrun : Production α) r := of_tally rfl rfl rfl

theorem deeper {p : Production α} {r : Reader} (h : r.depth < r.limit → Keeps p r.enter) :
    Keeps (deeper p) r := by
  rcases Nat.lt_or_ge r.depth r.limit with hlt | hle
  · obtain ⟨hlimit, hdepth, hdeepest⟩ := h hlt
    refine ⟨?_, ?_, ?_⟩ <;> rw [run_deeper_of_lt hlt]
    · exact hlimit
    · rw [Reader.leave, hdepth]
      exact Nat.add_sub_cancel _ _
    · exact Nat.le_trans (Nat.le_max_left _ _) hdeepest
  · refine of_tally ?_ ?_ ?_ <;> rw [run_deeper_of_le hle] <;> rfl

theorem simulation : Simulation fun p _ r => Keeps p r where
  pure _ _ := of_tally rfl rfl rfl
  bind := bind
  lookahead _ := of_tally rfl rfl rfl
  position _ := of_tally rfl rfl rfl
  tally _ := of_tally rfl rfl rfl
  refuse _ _ := of_tally rfl rfl rfl
  located _ x _ := by cases x <;> exact of_tally rfl rfl rfl
  note _ _ _ := of_tally rfl rfl rfl
  advance r _ := advance r

theorem within (d : Dialect) (levels : Nat) (r : Reader) : Keeps (d.grammar.within levels) r := by
  induction levels generalizing r with
  | zero => exact overrun r
  | succ levels ih =>
    have hinner (r : Reader) (_ : r.lookahead.IsOpening) :
        Keeps (Production.advance >>= fun _ => Production.deeper (d.grammar.within levels)) r :=
      (advance r).bind fun _ r' _ => deeper fun _ => ih r'.enter
    have h := @Simulation.expressionOver _ simulation _ (d.grammar.within levels) hinner d r
    exact ⟨h.limit, h.depth, h.deepest⟩

theorem expression (d : Dialect) (r : Reader) : Keeps d.grammar.expression r := by
  have h := within d (r.limit - r.depth + 1) r
  exact ⟨h.limit, h.depth, h.deepest⟩

end Keeps

/-! ## Two limits -/

/-- Under `limit`, `q` does what `p` does and no deeper level is recorded, or it fails on the first
level that is too deep, and `p` records that level. -/
def CappedBy (limit : Nat) (p q : Production α) (r : Reader) : Prop :=
  (q.run (r.capped limit) = ((p.run r).1, (p.run r).2.capped limit) ∧
      (p.run r).2.tally.deepest ≤ max r.tally.deepest limit) ∨
    (∃ place r', q.run (r.capped limit) = (.error (.tooDeep limit place), r')) ∧
      limit < (p.run r).2.tally.deepest

/-- `p` keeps its levels, and `q` does the same under `limit` from the readers that may still go
`n` levels down under their own limit, and `m` levels under `limit`. -/
def Capped (limit n m : Nat) (p q : Production α) (r : Reader) : Prop :=
  Keeps p r ∧ (r.depth ≤ limit → limit ≤ r.limit → r.limit < r.depth + n → limit < r.depth + m →
    CappedBy limit p q r)

namespace Capped

variable {limit n m : Nat} {p q : Production α} {r : Reader}

theorem of_tally (hkeeps : Keeps p r)
    (hrun : q.run (r.capped limit) = ((p.run r).1, (p.run r).2.capped limit))
    (htally : (p.run r).2.tally.deepest = r.tally.deepest) : Capped limit n m p q r :=
  ⟨hkeeps, fun _ _ _ _ => .inl ⟨hrun, htally ▸ Nat.le_max_left _ _⟩⟩

theorem bind {f g : α → Production β} (hp : Capped limit n m p q r)
    (hf : ∀ a r', p.run r = (.ok a, r') → Capped limit n m (f a) (g a) r') :
    Capped limit n m (p >>= f) (q >>= g) r := by
  obtain ⟨hkeeps, hcapped⟩ := hp
  refine ⟨hkeeps.bind fun a r' hrun => (hf a r' hrun).1, fun hdepth hlimit hn hm => ?_⟩
  have hcapped := hcapped hdepth hlimit hn hm
  have hlimit' := hkeeps.limit
  have hdepth' := hkeeps.depth
  unfold CappedBy at hcapped ⊢
  rcases hrun : p.run r with ⟨e | a, r'⟩ <;> rw [hrun] at hcapped hlimit' hdepth'
  · rw [run_bind_error hrun]
    rcases hcapped with ⟨hq, hdeepest⟩ | ⟨⟨place, s, hq⟩, hdeepest⟩
    · exact .inl ⟨run_bind_error hq, hdeepest⟩
    · exact .inr ⟨⟨place, s, run_bind_error hq⟩, hdeepest⟩
  · dsimp only at hlimit' hdepth' hcapped
    obtain ⟨hkeeps', hcapped'⟩ := hf a r' hrun
    rw [run_bind_ok hrun]
    rcases hcapped with ⟨hq, hdeepest⟩ | ⟨⟨place, s, hq⟩, hdeepest⟩
    · rw [run_bind_ok hq]
      rcases hcapped' (by omega) (by omega) (by omega) (by omega) with ⟨hq', hdeepest'⟩ | hdeep
      · exact .inl ⟨hq', by omega⟩
      · exact .inr hdeep
    · exact .inr ⟨⟨place, s, run_bind_error hq⟩, Nat.lt_of_lt_of_le hdeepest hkeeps'.deepest⟩

theorem prime : Capped limit n m prime prime r := by
  refine of_tally (.prime r) (r.fetch_capped limit) ?_
  show r.fetch.2.tally.deepest = _
  unfold Reader.fetch
  rcases r.source.next with ⟨fault | s, rest⟩ <;> rfl

theorem advance : Capped limit n m advance advance r :=
  of_tally (.advance r) (r.advance_capped limit) r.advance_deepest

theorem note (record : Record) (r : Reader) :
    Capped limit n m (note fun _ => record) (note fun _ => record) r :=
  of_tally (.of_tally rfl rfl rfl) rfl rfl

/-- One level is taken from both limits. On the last level under `limit`, the other run records the
next one as it enters it. -/
theorem deeper (h : ∀ r, Capped limit n m p q r) :
    Capped limit (n + 1) (m + 1) (deeper p) (deeper q) r := by
  refine ⟨.deeper fun _ => (h r.enter).1, fun hdepth hlimit hn hm => ?_⟩
  rcases Nat.lt_or_ge r.depth limit with hlt | hle
  · have hinner := (h r.enter).2 hlt hlimit (show r.limit < r.depth + 1 + n by omega)
      (show limit < r.depth + 1 + m by omega)
    have hmax : max r.enter.tally.deepest limit = max r.tally.deepest limit := by
      show max (max _ (r.depth + 1)) _ = _
      omega
    unfold CappedBy at hinner ⊢
    rw [hmax] at hinner
    rw [run_deeper_of_lt (show r.depth < r.limit by omega),
      run_deeper_of_lt (r := r.capped limit) hlt, Reader.capped_enter]
    rcases hinner with ⟨hq, hdeepest⟩ | ⟨⟨place, s, hq⟩, hdeepest⟩
    · exact .inl ⟨by rw [hq]; rfl, hdeepest⟩
    · exact .inr ⟨⟨place, s.leave, by rw [hq]⟩, hdeepest⟩
  · have hrun : (Production.deeper q).run (r.capped limit) =
        (.error (.tooDeep limit r.position), (r.capped limit).overrun.2) := run_deeper_of_le hle
    rcases Nat.lt_or_ge r.depth r.limit with hlt | hle'
    · refine .inr ⟨⟨_, _, hrun⟩, ?_⟩
      have hdeepest := (h r.enter).1.deepest
      rw [run_deeper_of_lt hlt]
      show limit < (p.run r.enter).2.tally.deepest
      have : r.depth + 1 ≤ r.enter.tally.deepest := Nat.le_max_right _ _
      omega
    · obtain rfl : limit = r.limit := by omega
      refine .inl ⟨?_, ?_⟩ <;> rw [run_deeper_of_le hle']
      · exact hrun
      · exact Nat.le_max_left _ _

theorem simulation : Simulation (Capped limit n m) where
  pure _ _ := of_tally (Keeps.simulation.pure _ _) rfl rfl
  bind := bind
  lookahead _ := of_tally (Keeps.simulation.lookahead _) rfl rfl
  position _ := of_tally (Keeps.simulation.position _) rfl rfl
  tally _ := of_tally (Keeps.simulation.tally _) rfl rfl
  refuse _ _ := of_tally (Keeps.simulation.refuse _ _) rfl rfl
  located _ x r := by
    refine of_tally (Keeps.simulation.located _ x r) ?_ ?_ <;> cases x <;> rfl
  note _ _ := note _
  advance _ _ := advance

theorem within (d : Dialect) : ∀ n m r, Capped limit n m (d.grammar.within n) (d.grammar.within m) r
  | 0, _, r => ⟨Keeps.within d 0 r, fun _ _ _ _ => by omega⟩
  | n + 1, 0, r => ⟨Keeps.within d (n + 1) r, fun _ _ _ _ => by omega⟩
  | n + 1, m + 1, r =>
    simulation.expressionOver (fun _ _ => advance.bind fun _ _ _ => deeper (within d n m)) d r

theorem expression (d : Dialect) (r : Reader) :
    Capped limit n m d.grammar.expression d.grammar.expression r := by
  refine ⟨Keeps.expression d r, fun hdepth hlimit _ _ => ?_⟩
  exact (within d (r.limit - r.depth + 1) (limit - r.depth + 1) r).2 hdepth hlimit (by omega)
    (by omega)

end Capped

end Production

open Production

/-- Under a lower limit an evaluation ends in the same way and with the same counts, or it fails on
a level that is too deep. Which of the two it is, the deepest level under the higher limit tells. -/
theorem evaluate_capped (d : Dialect) {limit free : Nat} (h : limit ≤ free) (source : Source) :
    (d.grammar.evaluate limit source = ((d.grammar.evaluate free source).1,
        (d.grammar.evaluate free source).2.capped limit) ∧
      (d.grammar.evaluate free source).2.tally.deepest ≤ limit) ∨
    ((∃ place r, d.grammar.evaluate limit source = (.error (.tooDeep limit place), r)) ∧
      limit < (d.grammar.evaluate free source).2.tally.deepest) := by
  have hcapped : Capped limit (free + 1) (limit + 1) d.grammar.evaluation d.grammar.evaluation
      (.fresh free source) :=
    Capped.prime.bind fun _ r _ => Capped.simulation.whole d Capped.note (Capped.expression d r)
  have := hcapped.2 (Nat.zero_le _) h (by show free < 0 + _; omega) (by show limit < 0 + _; omega)
  rwa [CappedBy, show max (Reader.fresh free source).tally.deepest limit = limit from
    Nat.zero_max _] at this

end Reckon
