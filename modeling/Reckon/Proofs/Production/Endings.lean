import Reckon.Proofs.Production.PowerChain
import Reckon.Proofs.Production.Straight

/-!
# What a production leaves in hand

Where a production gives a value, the symbol in hand is one that its last loop could not go on
with: no digit behind a literal, no star behind a chain of powers, and neither a star nor a sign
behind an expression.
-/

namespace Reckon

open Production

/-- What never ends in `none`, does not do so behind something else. -/
theorem run_bind_ne_none {α β : Type} {p : Production β} {f : β → Production (Option α)}
    {r t : Reader} (h : ∀ b s, (f b).run s ≠ (.ok none, t)) : (p >>= f).run r ≠ (.ok none, t) := by
  rw [run_bind]
  rcases p.run r with ⟨e | b, s⟩
  · rintro ⟨⟩
  · exact h b s

/-! ## Literals -/

theorem of_run_digitStep_none {start : Position} {v : Value} {r s : Reader}
    (h : (digitStep start v).run r = (.ok none, s)) : s.lookahead.isDigit = false := by
  rw [digitStep, run_bind_lookahead] at h
  split at h
  · next hdigit =>
    obtain ⟨-, rfl⟩ := Prod.mk.inj h
    rw [Symbol.isDigit, hdigit]
    rfl
  · refine absurd h (run_bind_ne_none fun _ _ => run_bind_ne_none fun _ _ => ?_)
    simp

theorem meets_literal_last (r : Reader) :
    literal.Meets r (fun _ s => s.lookahead.isDigit = false) fun _ _ => True := by
  unfold literal
  rw [meets_bind, meets_position, meets_bind, meets_lookahead]
  split
  · trivial
  · refine meets_bind_last fun _ s => ?_
    rw [meets_bind, meets_lookahead]
    split
    · trivial
    · next hdigit => exact Bool.eq_false_iff.mpr hdigit
  · refine meets_bind_last fun _ s => ?_
    rw [meets_bind]
    exact meets_repeatWhile_last fun _ _ _ => of_run_digitStep_none

/-! ## Chains of powers -/

variable {operand addend : Production Value}

/-- Raising looks at no symbol. -/
theorem run_fold_snd (bases : List (Value × Position)) (v : Value) (r : Reader) :
    ((Chain.fold ⟨bases, v⟩).run r).2 = r := by
  induction bases generalizing v with
  | nil => rfl
  | cons base bases ih =>
    obtain ⟨base, place⟩ := base
    rw [fold_cons, run_bind]
    cases base.power v with
    | error cause => rfl
    | ok w => exact ih w

theorem of_run_chainStep_none {chain : Chain} {r s : Reader}
    (h : (chainStep operand chain).run r = (.ok none, s)) : s.lookahead ≠ .star := by
  by_cases hstar : r.lookahead = .star
  · rw [run_chainStep_of_star hstar] at h
    refine absurd h (run_bind_ne_none fun _ _ => run_bind_ne_none fun _ _ =>
      run_bind_ne_none fun _ _ => ?_)
    simp
  · rw [run_chainStep_of_ne hstar] at h
    obtain rfl := congrArg Prod.snd h
    exact hstar

theorem meets_powerChain_last (operand : Production Value) (r : Reader) :
    (powerChain operand).Meets r (fun _ s => s.lookahead ≠ .star) fun _ _ => True := by
  refine meets_bind_last fun first s => ?_
  rw [meets_bind]
  refine meets_repeatWhile_last fun chain _ t hrun => ?_
  have hfold := run_fold_snd chain.bases chain.last t
  unfold Meets
  rcases hrunFold : chain.fold.run t with ⟨e | v, u⟩
  · trivial
  · obtain rfl : u = t := by rw [← hfold, hrunFold]
    exact of_run_chainStep_none hrun

/-! ## Sums -/

/-- Behind a sign an addend comes last, and without a sign nothing moves. -/
theorem meets_sumStep (haddend : ∀ r, addend.Meets r (fun _ s => s.lookahead ≠ .star)
      fun _ _ => True) (v : Value) {r : Reader} (hr : r.lookahead ≠ .star) :
    (sumStep addend v).Meets r (fun next s =>
      match next with
      | some _ => s.lookahead ≠ .star
      | none => s.Stops) fun _ _ => True := by
  have hsigned (operation : Value → Value → Except ArithmeticError Value) :
      (applyTo addend v operation).Meets r (fun next s =>
        match next with
        | some _ => s.lookahead ≠ .star
        | none => s.Stops) fun _ _ => True := by
    unfold applyTo
    rw [meets_bind, meets_position]
    refine meets_bind_last fun _ s => ?_
    rw [meets_bind]
    refine meets_ok_mono (haddend s) fun right t ht => ?_
    cases operation v right with
    | error cause => trivial
    | ok w => exact ht
  unfold sumStep
  rw [meets_bind, meets_lookahead]
  split
  · exact hsigned _
  split
  · exact hsigned _
  · next hplus hminus => exact ⟨hr, hplus, hminus⟩

/-- The addends leave no star, and the loop leaves no sign. -/
theorem exhausts_sum (haddend : ∀ r, addend.Meets r (fun _ s => s.lookahead ≠ .star)
    fun _ _ => True) : (sum addend).Exhausts := by
  intro r v s hrun
  refine of_meets_of_run_ok (Q := fun _ s => s.Stops) ?_ hrun
  unfold sum
  rw [meets_bind]
  refine meets_ok_mono (haddend r) fun first s hs => ?_
  refine meets_repeatWhile_of_invariant (fun _ s => s.lookahead ≠ .star) (fun v t ht => ?_) hs
  exact meets_ok_mono (meets_sumStep haddend v ht) fun next _ h => by cases next <;> exact h

theorem exhausts_dialect_expression (d : Dialect) : d.grammar.expression.Exhausts := by
  cases d with
  | standard =>
    have hclosed := expression_eq .standard
    rw [hclosed]
    exact exhausts_sum (meets_powerChain_last _)
  | ternary => exact exhausts_expression

end Reckon
