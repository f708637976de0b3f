import Reckon.Proofs.Production.Simulation
import Reckon.Proofs.Reading.Trees

/-!
# Lines without stars

The two dialects differ in what they do with a star. As long as no star is ahead, their
productions do the same step by step, although their loops are built differently.
-/

namespace Reckon

/-- No star before the first newline, also if a fault or an end comes in between. -/
def Source.Starless (s : Source) : Prop :=
  Outcome.byte Byte.star ∉ s.takeWhile (· ≠ .byte Byte.newline)

namespace Source.Starless

variable {s : Source}

theorem tail {o : Outcome} (h : Starless (o :: s)) (ho : o ≠ .byte Byte.newline) : s.Starless := by
  rw [Starless, List.takeWhile_cons_of_pos (by simpa using ho)] at h
  exact fun hmem => h (List.mem_cons_of_mem _ hmem)

theorem head_ne {o : Outcome} (h : Starless (o :: s)) : o ≠ .byte Byte.star := by
  rintro rfl
  exact h (by rw [List.takeWhile_cons_of_pos (by decide)]; exact List.mem_cons_self)

/-- The next symbol is no star, and behind any symbol but a newline there is still none ahead. -/
theorem next (h : s.Starless) :
    s.next.1 ≠ .ok .star ∧ (s.next.1 ≠ .ok (.byte Byte.newline) → Starless s.next.2) := by
  induction s with
  | nil => exact ⟨by simp [Source.next], fun _ => h⟩
  | cons o rest ih =>
    cases o with
    | byte b =>
      refine ⟨fun hstar => h.head_ne ?_, fun hline => h.tail fun hb => hline ?_⟩
      · rw [Symbol.byte.inj (Except.ok.inj hstar)]
      · rw [← Outcome.byte.inj hb]
        rfl
    | finish => exact ⟨by simp [Source.next], fun _ => h.tail (by simp)⟩
    | fault f =>
      have hrest := h.tail (by simp)
      rw [Source.next]
      split
      · exact ih hrest
      · exact ⟨by simp, fun _ => hrest⟩

end Source.Starless

/-- There is no star on the rest of the line. -/
structure Reader.Starless (r : Reader) : Prop where
  lookahead : r.lookahead ≠ .star
  source : r.lookahead ≠ .byte Byte.newline → r.source.Starless

namespace Reader.Starless

variable {r : Reader}

theorem fetch (hlookahead : r.lookahead ≠ .star) (h : r.source.Starless) :
    r.fetch.2.Starless := by
  obtain ⟨hstar, hrest⟩ := h.next
  unfold Reader.fetch
  rcases hnext : r.source.next with ⟨fault | s, rest⟩ <;> rw [hnext] at hstar hrest
  · exact ⟨hlookahead, fun _ => hrest (by simp)⟩
  · exact ⟨fun hs => hstar (congrArg Except.ok hs), fun hs => hrest fun h => hs (Except.ok.inj h)⟩

theorem advance (h : r.Starless) (hline : r.lookahead ≠ .byte Byte.newline) :
    r.advance.2.Starless := by
  rw [Reader.advance_snd]
  exact fetch (r := r.release) h.lookahead (h.source hline)

end Reader.Starless

namespace Production

variable {α : Type} {r : Reader}

/-- With no star ahead `q` does what `p` does, and then there is still none ahead. -/
def Coincides (p q : Production α) (r : Reader) : Prop :=
  r.Starless → p.run r = q.run r ∧ (p.run r).2.Starless

namespace Coincides

theorem simulation : Simulation Coincides where
  pure _ _ h := ⟨rfl, h⟩
  bind {_ _ p q f g r} hp hf h := by
    obtain ⟨hrun, hstarless⟩ := hp h
    rcases hr : p.run r with ⟨e | a, r'⟩ <;> rw [hr] at hrun hstarless
    · rw [run_bind_error hr, run_bind_error hrun.symm]
      exact ⟨rfl, hstarless⟩
    · rw [run_bind_ok hr, run_bind_ok hrun.symm]
      exact hf a r' hr hstarless
  lookahead _ h := ⟨rfl, h⟩
  position _ h := ⟨rfl, h⟩
  tally _ h := ⟨rfl, h⟩
  refuse _ _ h := ⟨rfl, h⟩
  located _ x _ h := by cases x <;> exact ⟨rfl, h⟩
  note _ _ _ h := ⟨rfl, h.lookahead, h.source⟩
  advance r hr h := ⟨rfl, h.advance fun hline => by rw [hline] at hr; exact absurd hr (by decide)⟩

theorem overrun : Coincides (overrun : Production α) overrun r :=
  fun h => ⟨rfl, h.lookahead, h.source⟩

theorem deeper {p q : Production α} (h : ∀ r, Coincides p q r) :
    Coincides (deeper p) (deeper q) r := by
  intro hr
  rcases Nat.lt_or_ge r.depth r.limit with hlt | hle
  · obtain ⟨hrun, hstarless⟩ := h r.enter ⟨hr.lookahead, hr.source⟩
    rw [run_deeper_of_lt hlt, run_deeper_of_lt hlt, ← hrun]
    exact ⟨rfl, hstarless.lookahead, hstarless.source⟩
  · rw [run_deeper_of_le hle, run_deeper_of_le hle]
    exact ⟨rfl, hr.lookahead, hr.source⟩

/-! ## The loops of the two dialects -/

variable {inner inner' operand operand' addend addend' : Production Value}

/-- A chain without a star is its first operand. -/
theorem powerChain (h : ∀ r, Coincides operand operand' r) :
    Coincides (Reckon.powerChain operand) operand' r := by
  rw [← bind_pure operand']
  refine simulation.bind (h r) fun first r' _ hr' => ?_
  rw [run_bind_ok (run_repeatWhile_of_none (run_chainStep_of_ne hr'.lookahead))]
  exact ⟨rfl, hr'⟩

theorem ternaryStep (haddend : ∀ r, Coincides addend (Reckon.operandOver inner') r) (v : Value) :
    Coincides (Reckon.sumStep addend v) (Reckon.ternaryStep inner' v) r := by
  rw [← bind_pure (Reckon.sumStep addend v)]
  refine simulation.bind (simulation.sumStep haddend v r) fun next r' _ => ?_
  cases next with
  | some w => exact simulation.pure _ r'
  | none =>
    intro hr'
    rw [run_starStep_of_ne hr'.lookahead]
    exact ⟨rfl, hr'⟩

theorem expressionOver (h : ∀ r, Coincides inner inner' r) :
    Coincides (Grammar.standard.expressionOver inner) (Grammar.ternary.expressionOver inner') r := by
  have hoperand (r : Reader) :
      Coincides (Reckon.operandOver inner) (Reckon.operandOver inner') r := by
    refine simulation.operandOver (fun r hr => ?_) r
    exact simulation.bind (simulation.advance r hr.not_isTerminator) fun _ _ _ => deeper h
  refine simulation.bind (powerChain hoperand) fun first r' _ => ?_
  exact simulation.repeatWhile (fun v _ => ternaryStep (fun _ => powerChain hoperand) v) first r'

theorem within (levels : Nat) (r : Reader) :
    Coincides (Grammar.standard.within levels) (Grammar.ternary.within levels) r := by
  induction levels generalizing r with
  | zero => exact overrun
  | succ levels ih => exact expressionOver ih

theorem expression (r : Reader) :
    Coincides Grammar.standard.expression Grammar.ternary.expression r :=
  within (r.limit - r.depth + 1) r

end Coincides

end Production

end Reckon
