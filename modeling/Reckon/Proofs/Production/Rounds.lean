import Reckon.Proofs.Production.Spending

/-!
# Rounds of loops

A loop goes through its rounds one by one. Each of them begins with fewer symbols to go than the
one before, so there are only so many, and the last one ends the loop.
-/

namespace Reckon

namespace Production

variable {α : Type}

/-- `n` rounds of `step` lead from `a` and `r` to `b` and `s`. -/
inductive Rounds (step : α → Production (Option α)) (a : α) (r : Reader) : Nat → α → Reader → Prop
  | start : Rounds step a r 0 a r
  | next {n : Nat} {b c : α} {s t : Reader} (h : Rounds step a r n b s)
    (hrun : (step b).run s = (.ok (some c), t)) : Rounds step a r (n + 1) c t

variable {step : α → Production (Option α)} {a b c : α} {r s t : Reader} {n : Nat}

namespace Rounds

theorem behind (hrun : (step a).run r = (.ok (some b), s)) (h : Rounds step b s n c t) :
    Rounds step a r (n + 1) c t := by
  induction h with
  | start => exact .next .start hrun
  | next _ hnext ih => exact .next ih hnext

theorem spent (hstep : ∀ a r, Proceeds (step a) r) (h : Rounds step a r n b s) :
    ∃ k, n ≤ k ∧ r.Spent s k := by
  induction h with
  | start => exact ⟨0, Nat.le_refl 0, .refl r⟩
  | @next n b c s t _ hrun ih =>
    obtain ⟨k, hk, hspent⟩ := ih
    obtain ⟨l, hl, hspent'⟩ := hstep b s (some c) t hrun
    exact ⟨k + l, Nat.add_le_add hk (hl rfl), hspent.trans hspent'⟩

end Rounds

/-- The round that begins at `b` and `s` is the last one, and the loop ends as it does. -/
inductive EndsLoop (step : α → Production (Option α)) (b : α) (s : Reader) :
    Except Failure α × Reader → Prop
  | done {t : Reader} (hrun : (step b).run s = (.ok none, t)) : EndsLoop step b s (.ok b, t)
  | failed {e : Failure} {t : Reader} (hrun : (step b).run s = (.error e, t)) :
    EndsLoop step b s (.error e, t)

theorem exists_rounds (moves : ∀ a, (step a).Moves) (a : α) (r : Reader) :
    ∃ n b s, Rounds step a r n b s ∧ EndsLoop step b s ((repeatWhile step moves a).run r) := by
  induction hn : r.unread using Nat.strongRecOn generalizing a r with
  | ind n ih =>
    rw [run_repeatWhile]
    rcases hrun : (step a).run r with ⟨e | _ | b, s⟩
    · exact ⟨0, a, r, .start, .failed hrun⟩
    · exact ⟨0, a, r, .start, .done hrun⟩
    · obtain ⟨m, c, t, hrounds, hends⟩ := ih _ (hn ▸ moves a r b s hrun) b s rfl
      exact ⟨m + 1, c, t, hrounds.behind hrun, hends⟩

/-- Every round of the loop begins with fewer than `bound` symbols to go, and with fewer than the
round before it. The loop ends. -/
structure Winds (step : α → Production (Option α)) (moves : ∀ a, (step a).Moves) (a : α)
    (r : Reader) (bound : Nat) : Prop where
  below : ∀ n b s, Rounds step a r n b s → s.toGo + n < bound
  falls : ∀ n b s c t, Rounds step a r n b s → (step b).run s = (.ok (some c), t) →
    t.toGo < s.toGo
  ends : ∃ n b s, Rounds step a r n b s ∧ EndsLoop step b s ((repeatWhile step moves a).run r)

theorem winds (hstep : ∀ a r, Proceeds (step a) r) (moves : ∀ a, (step a).Moves) (a : α)
    {bound : Nat} (hbound : r.toGo < bound) : Winds step moves a r bound where
  below n b s h := by
    obtain ⟨k, hk, hspent⟩ := h.spent hstep
    have := hspent.toGo
    omega
  falls n b s c t _ hrun := by
    obtain ⟨k, hk, hspent⟩ := hstep b s (some c) t hrun
    have := hspent.toGo
    have := hk rfl
    omega
  ends := exists_rounds moves a r

theorem Spends.toGo_lt {p : Production α} (h : Spends 1 p r) (hrun : p.run r = (.ok a, s)) :
    s.toGo < r.toGo := by
  obtain ⟨k, hk, hspent⟩ := h a s hrun
  have := hspent.toGo
  omega

end Production

end Reckon
