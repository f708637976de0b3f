import Reckon.Proofs.Reading.Trees
import Reckon.Proofs.Production.Simulation

/-!
# Chains of powers as a recursion

A chain of powers is read in a loop and raised from the right when it has come to its end. The
rule of the grammar is recursive instead: the exponent is a chain of its own, and its power is
taken as soon as it is read. Both are the same production, with every failure and every reader
on the way.
-/

namespace Reckon

open Production

/-- `('**' power)?` behind a base. -/
def raisedOver (power : Production Value) (base : Value) : Production Value := do
  if (← lookahead) = .star then
    let place ← position
    let _ ← advance
    require Byte.star
    let exponent ← power
    located place (base.power exponent)
  else
    return base

/-- `power := operand ('**' power)?`, with the inner power as a parameter. -/
def powerOver (operand power : Production Value) : Production Value := do
  let base ← operand
  raisedOver power base

variable {operand power : Production Value} {r : Reader}

theorem run_raisedOver_of_ne {base : Value} (h : r.lookahead ≠ .star) :
    (raisedOver power base).run r = (.ok base, r) := by
  unfold raisedOver
  rw [run_bind_lookahead, if_neg h, run_pure]

theorem run_raisedOver_of_star {base : Value} (h : r.lookahead = .star) :
    (raisedOver power base).run r =
      (do
        let _ ← advance
        require Byte.star
        let exponent ← power
        located r.position (base.power exponent) : Production Value).run r := by
  unfold raisedOver
  rw [run_bind_lookahead, if_pos h, run_bind_position]

/-! ## The bases of a chain that are already read -/

/-- The rest of a chain behind `last`. -/
def chainFrom (operand : Production Value) (bases : List (Value × Position)) (last : Value) :
    Production Value := do
  let chain ← repeatWhile (chainStep operand) (chainStep_moves operand) ⟨bases, last⟩
  chain.fold

theorem powerChain_eq : powerChain operand = operand >>= chainFrom operand [] := rfl

theorem fold_nil (v : Value) : Chain.fold ⟨[], v⟩ = pure v := rfl

theorem fold_cons (base : Value) (place : Position) (bases : List (Value × Position))
    (v : Value) :
    Chain.fold ⟨(base, place) :: bases, v⟩ =
      located place (base.power v) >>= fun w => Chain.fold ⟨bases, w⟩ := by
  unfold Chain.fold
  rw [List.foldlM_cons]

theorem run_chainFrom_of_ne {bases : List (Value × Position)} {last : Value}
    (h : r.lookahead ≠ .star) :
    (chainFrom operand bases last).run r = (Chain.fold ⟨bases, last⟩).run r :=
  run_bind_ok (run_repeatWhile_of_none (run_chainStep_of_ne h))

theorem run_chainFrom_of_star {bases : List (Value × Position)} {last : Value}
    (h : r.lookahead = .star) :
    (chainFrom operand bases last).run r =
      (do
        let _ ← advance
        require Byte.star
        let next ← operand
        chainFrom operand ((last, r.position) :: bases) next : Production Value).run r := by
  unfold chainFrom
  rw [repeatWhile_eq_bind, bind_assoc, run_bind, run_chainStep_of_star h, ← run_bind]
  simp only [bind_assoc, pure_bind]

/-- The bases that are already read wait until the rest of the chain has its value. -/
theorem run_chainFrom (bases : List (Value × Position)) (last : Value) (r : Reader) :
    (chainFrom operand bases last).run r =
      (chainFrom operand [] last >>= fun v => Chain.fold ⟨bases, v⟩).run r := by
  induction hn : r.unread using Nat.strongRecOn generalizing bases last r with
  | ind n ih =>
    subst hn
    by_cases hstar : r.lookahead = .star
    · rw [run_chainFrom_of_star hstar,
        run_bind_congr (run_chainFrom_of_star hstar) fun _ _ _ => rfl]
      simp only [bind_assoc]
      refine run_bind_congr rfl fun _ s hs => ?_
      refine run_bind_congr rfl fun _ t ht => run_bind_congr rfl fun next u hu => ?_
      have hlt : u.unread < r.unread := by
        have hadvance := unread_lt_of_run_advance (by simp [hstar]) hs
        have hrequire := unread_le_of_run ht
        have hoperand := unread_le_of_run hu
        omega
      -- On both sides the last base is raised first, and then those that wait.
      rw [ih _ hlt _ next u rfl,
        run_bind_congr (ih _ hlt [(last, r.position)] next u rfl) fun _ _ _ => rfl]
      simp only [fold_cons, fold_nil, bind_assoc, pure_bind]
    · rw [run_chainFrom_of_ne hstar, run_bind_ok (run_chainFrom_of_ne hstar)]

/-! ## The rule of the recursion -/

theorem powerOver_powerChain : powerOver operand (powerChain operand) = powerChain operand := by
  refine ext fun r => ?_
  show (operand >>= raisedOver (powerChain operand)).run r = (operand >>= chainFrom operand []).run r
  refine run_bind_congr rfl fun base s _ => ?_
  by_cases hstar : s.lookahead = .star
  · rw [run_raisedOver_of_star hstar, run_chainFrom_of_star hstar, powerChain_eq]
    simp only [bind_assoc]
    refine run_bind_congr rfl fun _ t _ => ?_
    refine run_bind_congr rfl fun _ u _ => run_bind_congr rfl fun next w _ => ?_
    rw [run_chainFrom [(base, s.position)] next w]
    simp only [fold_cons, fold_nil, bind_pure]
  · rw [run_raisedOver_of_ne hstar, run_chainFrom_of_ne hstar]
    rfl

/-- Only one production obeys the rule, since every exponent has less to read. -/
theorem eq_of_eq_powerOver {p q : Production Value} (hp : p = powerOver operand p)
    (hq : q = powerOver operand q) : p = q := by
  refine ext fun r => ?_
  induction hn : r.unread using Nat.strongRecOn generalizing r with
  | ind n ih =>
    rw [hp, hq]
    refine run_bind_congr rfl fun base s hs => ?_
    by_cases hstar : s.lookahead = .star
    · rw [run_raisedOver_of_star hstar, run_raisedOver_of_star hstar]
      refine run_bind_congr rfl fun _ t ht => run_bind_congr rfl fun _ u hu => ?_
      have hlt : u.unread < n := by
        have hoperand := unread_le_of_run hs
        have hadvance := unread_lt_of_run_advance (by simp [hstar]) ht
        have hrequire := unread_le_of_run hu
        omega
      exact run_bind_congr (ih _ hlt u rfl) fun _ _ _ => rfl
    · rw [run_raisedOver_of_ne hstar, run_raisedOver_of_ne hstar]

/-- The addend of the standard grammar obeys the recursive rule from every reader, and no other
production does. -/
theorem standard_addend_recursive (p : Production Value) :
    p = powerOver Grammar.standard.operand p ↔ p = Grammar.standard.addend := by
  have haddend : Grammar.standard.addend = powerOver Grammar.standard.operand
      Grammar.standard.addend := powerOver_powerChain.symm
  constructor
  · intro hp
    exact eq_of_eq_powerOver hp haddend
  · rintro rfl
    exact haddend

end Reckon
