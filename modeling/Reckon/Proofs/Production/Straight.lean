import Reckon.Proofs.Production.Limited
import Reckon.Proofs.Reading.Trees

/-!
# Expressions as a recursion

An expression is written down level by level, and it obeys the recursive rule of its grammar. The
loop of the ternary grammar takes signs and stars in any order, but an exponent leaves nothing
behind that the loop could go on with. So a ternary expression is a sum with at most one
exponent, and there it ends.
-/

namespace Reckon

namespace Production

variable {α β : Type}

/-- `p` keeps its level, and with just `room` levels below the reader `q` does the same. -/
def Agrees (room : Nat) (p q : Production α) (r : Reader) : Prop :=
  Keeps p r ∧ (r.limit - r.depth = room → p.run r = q.run r)

namespace Agrees

variable {room : Nat} {p q : Production α} {r : Reader}

theorem refl (h : Keeps p r) : Agrees room p p r := ⟨h, fun _ => rfl⟩

theorem bind {f g : α → Production β} (hp : Agrees room p q r)
    (hf : ∀ a s, p.run r = (.ok a, s) → Agrees room (f a) (g a) s) :
    Agrees room (p >>= f) (q >>= g) r := by
  refine ⟨hp.1.bind fun a s hrun => (hf a s hrun).1, fun hroom => ?_⟩
  refine run_bind_congr (hp.2 hroom) fun a s hrun => (hf a s hrun).2 ?_
  have hlimit : s.limit = r.limit := by simpa [hrun] using hp.1.limit
  have hdepth : s.depth = r.depth := by simpa [hrun] using hp.1.depth
  omega

/-- On the last level both are refused without a look at what they would do. -/
theorem deeper (hkeeps : ∀ s, Keeps p s)
    (h : ∀ s, s.limit - s.depth + 1 = room → p.run s = q.run s) :
    Agrees room (deeper p) (deeper q) r := by
  refine ⟨.deeper fun _ => hkeeps r.enter, fun hroom => ?_⟩
  rcases Nat.lt_or_ge r.depth r.limit with hlt | hle
  · have henter : r.enter.limit - r.enter.depth + 1 = room := by
      show r.limit - (r.depth + 1) + 1 = room
      omega
    rw [run_deeper_of_lt hlt, run_deeper_of_lt hlt, h r.enter henter]
  · rw [run_deeper_of_le hle, run_deeper_of_le hle]

theorem simulation : Simulation (Agrees room) where
  pure _ _ := refl (Keeps.simulation.pure _ _)
  bind := bind
  lookahead _ := refl (Keeps.simulation.lookahead _)
  position _ := refl (Keeps.simulation.position _)
  tally _ := refl (Keeps.simulation.tally _)
  refuse _ _ := refl (Keeps.simulation.refuse _ _)
  located _ _ _ := refl (Keeps.simulation.located _ _ _)
  note _ _ _ := refl (Keeps.simulation.note _ _ _)
  advance r _ := refl (.advance r)

end Agrees

end Production

open Production

/-! ## The circle is closed -/

/-- What is inside the parentheses of an expression is the expression itself. -/
theorem expression_eq (d : Dialect) :
    d.grammar.expression = d.grammar.expressionOver d.grammar.expression := by
  refine ext fun r => ?_
  have hopening (s : Reader) (_ : s.lookahead.IsOpening) :
      Agrees (r.limit - r.depth)
        (advance >>= fun _ => deeper (d.grammar.within (r.limit - r.depth)))
        (advance >>= fun _ => deeper d.grammar.expression) s :=
    (Agrees.refl (.advance s)).bind fun _ _ _ =>
      .deeper (Keeps.within d _) fun t ht => by rw [← ht]; rfl
  exact (@Simulation.expressionOver _ Agrees.simulation _ _ hopening d r).2 rfl

/-! ## At most one exponent -/

/-- `('*' inner)?` behind a sum, with the exponent one level deeper. -/
def starredOver (inner : Production Value) (base : Value) : Production Value := do
  if (← lookahead) = .star then
    let place ← position
    let _ ← advance
    let exponent ← deeper inner
    located place (base.power exponent)
  else
    return base

/-- `expression := sum ('*' inner)?`, and no look at what comes behind the exponent. -/
def straightOver (operand inner : Production Value) : Production Value := do
  let base ← sum operand
  starredOver inner base

/-- The symbol in hand is neither a star nor a sign. -/
structure Reader.Stops (r : Reader) : Prop where
  star : r.lookahead ≠ .star
  plus : r.lookahead ≠ .plus
  minus : r.lookahead ≠ .minus

/-- `p` gives no value in front of a star or a sign. -/
def Production.Exhausts (p : Production Value) : Prop :=
  ∀ r v s, p.run r = (.ok v, s) → s.Stops

variable {operand inner : Production Value} {r s : Reader}

theorem run_starredOver_of_ne {base : Value} (h : r.lookahead ≠ .star) :
    (starredOver inner base).run r = (.ok base, r) := by
  unfold starredOver
  rw [run_bind_lookahead, if_neg h, run_pure]

theorem run_starredOver_of_star {base : Value} (h : r.lookahead = .star) :
    (starredOver inner base).run r =
      (do
        let _ ← advance
        let exponent ← deeper inner
        located r.position (base.power exponent) : Production Value).run r := by
  unfold starredOver
  rw [run_bind_lookahead, if_pos h, run_bind_position]

theorem of_run_sumStep_none {v : Value} (h : (sumStep operand v).run r = (.ok none, s)) :
    s = r ∧ r.lookahead ≠ .plus ∧ r.lookahead ≠ .minus := by
  have hsign (sign : Sign) : r.lookahead ≠ .byte sign.byte := by
    intro hlook
    rw [run_sumStep_of_sign sign hlook] at h
    exact run_applyTo_ne_none h
  rw [run_sumStep_of_ne (hsign .plus) (hsign .minus)] at h
  exact ⟨(congrArg Prod.snd h).symm, hsign .plus, hsign .minus⟩

theorem of_run_starStep_none {v : Value} (h : (starStep inner v).run r = (.ok none, s)) :
    s = r ∧ r.lookahead ≠ .star := by
  by_cases hstar : r.lookahead = .star
  · rw [run_starStep_of_star hstar] at h
    simp only [← bind_assoc] at h
    exact absurd h run_bind_some_ne_none
  · rw [run_starStep_of_ne hstar] at h
    exact ⟨(congrArg Prod.snd h).symm, hstar⟩

theorem stops_of_run_ternaryStep_none {v : Value}
    (h : (ternaryStep inner v).run r = (.ok none, s)) : s.Stops := by
  rw [ternaryStep] at h
  rcases hrun : (sumStep (operandOver inner) v).run r with ⟨e | _ | w, t⟩
  · rw [run_bind_error hrun] at h
    cases h
  · obtain ⟨rfl, hplus, hminus⟩ := of_run_sumStep_none hrun
    rw [run_bind_ok hrun] at h
    obtain ⟨rfl, hstar⟩ := of_run_starStep_none h
    exact ⟨hstar, hplus, hminus⟩
  · rw [run_bind_ok hrun] at h
    simp at h

theorem run_ternary_loop_of_stops {v : Value} (h : r.Stops) :
    (repeatWhile (ternaryStep inner) (ternaryStep_moves inner) v).run r = (.ok v, r) := by
  apply run_repeatWhile_of_none
  rw [run_ternaryStep_of_ne h.plus h.minus, run_starStep_of_ne h.star]

theorem exhausts_deeper (h : inner.Exhausts) : (deeper inner).Exhausts := by
  intro r v s hrun
  rcases Nat.lt_or_ge r.depth r.limit with hlt | hle
  · rw [run_deeper_of_lt hlt] at hrun
    obtain ⟨hv, rfl⟩ := Prod.mk.inj hrun
    obtain ⟨hstar, hplus, hminus⟩ := h r.enter v _ (Prod.ext hv rfl)
    exact ⟨hstar, hplus, hminus⟩
  · rw [run_deeper_of_le hle] at hrun
    exact nomatch congrArg Prod.fst hrun

/-- The loop takes the signs that come first, and at most one star behind them. -/
theorem run_ternary_loop (hinner : inner.Exhausts) (v : Value) (r : Reader) :
    (repeatWhile (ternaryStep inner) (ternaryStep_moves inner) v).run r =
      (repeatWhile (sumStep (operandOver inner)) (sumStep_moves (operandOver inner)) v >>=
        starredOver inner).run r := by
  induction hn : r.unread using Nat.strongRecOn generalizing v r with
  | ind n ih =>
    rw [repeatWhile_eq_bind, repeatWhile_eq_bind, ternaryStep, bind_assoc, bind_assoc]
    refine run_bind_congr rfl fun next s hrun => ?_
    cases next with
    | some w => exact ih _ (hn ▸ sumStep_moves (operandOver inner) v r w s hrun) w s rfl
    | none =>
      by_cases hstar : s.lookahead = .star
      · rw [run_bind_congr (run_starStep_of_star hstar) fun _ _ _ => rfl]
        show _ = (starredOver inner v).run s
        rw [run_starredOver_of_star hstar]
        simp only [bind_assoc]
        refine run_bind_congr rfl fun _ s₁ _ => run_bind_congr rfl fun exponent s₂ hexponent => ?_
        cases v.power exponent with
        | error cause => rfl
        | ok w => exact run_ternary_loop_of_stops (exhausts_deeper hinner _ _ _ hexponent)
      · rw [run_bind_ok (run_starStep_of_ne hstar)]
        exact (run_starredOver_of_ne hstar).symm

theorem expressionOver_eq_straightOver (hinner : inner.Exhausts) :
    Grammar.ternary.expressionOver inner = straightOver (operandOver inner) inner := by
  refine ext fun r => ?_
  show (operandOver inner >>= _).run r = ((operandOver inner >>= _) >>= _).run r
  rw [bind_assoc]
  exact run_bind_congr rfl fun first s _ => run_ternary_loop hinner first s

/-- The loop ends only in front of a symbol that it cannot go on with. -/
theorem exhausts_expressionOver : (Grammar.ternary.expressionOver inner).Exhausts := by
  intro r v s hrun
  refine of_meets_of_run_ok (Q := fun _ s => s.Stops) ?_ hrun
  refine meets_bind_last fun first s => ?_
  exact meets_repeatWhile_last fun _ _ _ => stops_of_run_ternaryStep_none

theorem exhausts_expression : Grammar.ternary.expression.Exhausts := by
  have hclosed : Grammar.ternary.expression =
      Grammar.ternary.expressionOver Grammar.ternary.expression := expression_eq .ternary
  rw [hclosed]
  exact exhausts_expressionOver

theorem keeps_operand (d : Dialect) (r : Reader) : Keeps d.grammar.operand r :=
  @Simulation.operandOver _ Keeps.simulation _ d.grammar.expression
    (fun s _ => (Keeps.advance s).bind fun _ t _ => .deeper fun _ => .expression d t.enter) r

theorem expression_eq_straightOver :
    Grammar.ternary.expression =
      straightOver Grammar.ternary.operand Grammar.ternary.expression :=
  (expression_eq .ternary).trans (expressionOver_eq_straightOver exhausts_expression)

/-- Only one production obeys the rule, since every exponent has less room. -/
theorem eq_of_eq_straightOver {p q : Production Value} (hoperand : ∀ r, Keeps operand r)
    (hkeeps : ∀ r, Keeps q r) (hp : p = straightOver operand p)
    (hq : q = straightOver operand q) : p = q := by
  refine ext fun r => ?_
  induction hn : r.limit - r.depth using Nat.strongRecOn generalizing r with
  | ind n ih =>
    have hopened (s : Reader) : Agrees n (advance >>= fun _ => deeper q)
        (advance >>= fun _ => deeper p) s :=
      (Agrees.refl (.advance s)).bind fun _ _ _ =>
        .deeper hkeeps fun t ht => (ih _ (by omega) t rfl).symm
    have hstarred (base : Value) (s : Reader) :
        Agrees n (starredOver q base) (starredOver p base) s := by
      apply Agrees.simulation.bind_lookahead
      split
      · apply Agrees.simulation.bind_position
        rw [← bind_assoc advance, ← bind_assoc advance]
        exact (hopened s).bind fun _ t _ => Agrees.simulation.located _ _ t
      · exact Agrees.simulation.pure _ s
    have hsum : Agrees n (sum operand) (sum operand) r :=
      .refl (@Simulation.sum _ Keeps.simulation operand operand hoperand r)
    rw [hp, hq]
    exact ((hsum.bind fun base s _ => hstarred base s).2 hn).symm

/-- The ternary expression obeys the straight rule from every reader, and no other production
does. Where it gives a value, it has left no star and no sign in hand. -/
theorem ternary_expression_straight :
    (∀ p : Production Value,
      p = straightOver Grammar.ternary.operand p ↔ p = Grammar.ternary.expression) ∧
    ∀ (r s : Reader) (v : Value), Grammar.ternary.expression.run r = (.ok v, s) →
      s.lookahead ≠ .star ∧ s.lookahead ≠ .plus ∧ s.lookahead ≠ .minus := by
  refine ⟨fun p => ⟨fun hp => ?_, ?_⟩, fun r s v hrun => ?_⟩
  · exact eq_of_eq_straightOver (keeps_operand .ternary) (Keeps.expression .ternary) hp
      expression_eq_straightOver
  · rintro rfl
    exact expression_eq_straightOver
  · obtain ⟨hstar, hplus, hminus⟩ := exhausts_expression r v s hrun
    exact ⟨hstar, hplus, hminus⟩

end Reckon
