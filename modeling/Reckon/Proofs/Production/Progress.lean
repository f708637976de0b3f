import Reckon.Proofs.Production.Calls
import Reckon.Proofs.Production.Endings
import Reckon.Proofs.Production.Rounds

/-!
# Progress

A production that gives a value has consumed something, every round of a loop and every call has
fewer symbols to go than what it belongs to, and there are never more calls inside each other than
levels. So everything ends, from every reader and whatever its reads report.
-/

namespace Reckon

open Production

/-- From `r`, every production of `d` consumes a symbol before it gives a value. -/
structure Dialect.Progresses (d : Dialect) (r : Reader) : Prop where
  literal : Spends 1 literal r
  operand : Spends 1 d.grammar.operand r
  addend : Spends 1 d.grammar.addend r
  expression : Spends 1 d.grammar.expression r
  nextAddend : ∀ v, Proceeds (d.grammar.nextAddend v) r

/-- Every loop of a production that was entered at `r` winds down below what `r` has to go. -/
structure LoopsWind (r : Reader) : Prop where
  digits : ∀ x s, r.lookahead.isDigit = true → advance.run r = (.ok x, s) →
    ∀ start v, Winds (digitStep start) (digitStep_moves start) v s r.toGo
  chain : ∀ v s, Grammar.standard.operand.run r = (.ok v, s) →
    Winds (chainStep Grammar.standard.operand) (chainStep_moves _) ⟨[], v⟩ s r.toGo
  /-- Behind the chain, raising begins and ends every round where the chain has ended. -/
  powers : ∀ v s chain t, Grammar.standard.operand.run r = (.ok v, s) →
    (repeatWhile (chainStep Grammar.standard.operand) (chainStep_moves _) ⟨[], v⟩).run s =
      (.ok chain, t) →
    t.toGo < r.toGo ∧ ∀ bases w, ((Chain.fold ⟨bases, w⟩).run t).2 = t
  sum : ∀ v s, Grammar.standard.addend.run r = (.ok v, s) →
    Winds (sumStep Grammar.standard.addend) (sumStep_moves _) v s r.toGo
  ternary : ∀ v s, Grammar.ternary.operand.run r = (.ok v, s) →
    Winds (ternaryStep Grammar.ternary.expression) (ternaryStep_moves _) v s r.toGo

/-- Wherever a production of `d` that was entered at `r` calls the expression, it is inside `r`. -/
structure Dialect.CallsInside (d : Dialect) (r : Reader) : Prop where
  operand : ∀ s, Consults operandOver d.grammar.expression r s → r.Inside s
  addend : ∀ s, Consults d.grammar.addendOver d.grammar.expression r s → r.Inside s
  nextAddend : ∀ v s, Consults (fun inner => sumStep (d.grammar.addendOver inner) v)
    d.grammar.expression r s → r.Inside s
  expression : ∀ s, Consults d.grammar.expressionOver d.grammar.expression r s → r.Inside s

/-- What the productions of `d` that were entered at `r` leave in hand. -/
structure Dialect.LeavesInHand (d : Dialect) (r : Reader) : Prop where
  literal : ∀ v s, literal.run r = (.ok v, s) → s.lookahead.isDigit = false
  chain : ∀ v s, Grammar.standard.addend.run r = (.ok v, s) → s.lookahead ≠ .star
  expression : ∀ v s, d.grammar.expression.run r = (.ok v, s) → s.Stops

variable (d : Dialect) (r : Reader)

theorem Dialect.progresses : d.Progresses r where
  literal := .literal r
  operand := .operand d r
  addend := .addend d r
  expression := .expression d r
  nextAddend v := .nextAddend d v r

theorem loopsWind : LoopsWind r where
  digits _ _ hdigit hadvance start v := by
    obtain ⟨n, hn⟩ := Option.isSome_iff_exists.mp hdigit
    have hspends := Spends.advance (Symbol.not_isTerminator_of_digit? hn)
    exact winds (Proceeds.digitStep start) _ v (hspends.toGo_lt hadvance)
  chain v _ hrun := by
    have hstep := Proceeds.chainStep fun t => (Spends.operand .standard t).zero
    exact winds hstep _ ⟨[], v⟩ ((Spends.operand .standard r).toGo_lt hrun)
  powers v s chain t hrun hchain := by
    have hlt := (Spends.operand .standard r).toGo_lt hrun
    have hstep := Proceeds.chainStep fun t => (Spends.operand .standard t).zero
    obtain ⟨k, -, hspent⟩ := Spends.repeatWhile hstep _ s chain t hchain
    have := hspent.toGo
    exact ⟨by omega, fun bases w => run_fold_snd bases w t⟩
  sum v _ hrun := by
    have hstep := Proceeds.sumStep fun t => (Spends.addend .standard t).zero
    exact winds hstep _ v ((Spends.addend .standard r).toGo_lt hrun)
  ternary v _ hrun := by
    have hstep := Proceeds.ternaryStep (fun t => (Spends.expression .ternary t).zero)
      fun t => (Spends.operand .ternary t).zero
    exact winds hstep _ v ((Spends.operand .ternary r).toGo_lt hrun)

theorem Dialect.callsInside : d.CallsInside r where
  operand _ := inside_of_consults fun _ h => Matches.simulation.operandOver h r
  addend _ := inside_of_consults fun _ h => Matches.simulation.addendOver h d r
  nextAddend v _ := inside_of_consults fun _ h =>
    Matches.simulation.sumStep (Matches.simulation.addendOver h d) v r
  expression _ := inside_of_consults_expressionOver

theorem Dialect.leavesInHand : d.LeavesInHand r where
  literal _ _ hrun := of_meets_of_run_ok (meets_literal_last r) hrun
  chain _ _ hrun := of_meets_of_run_ok (meets_powerChain_last _ r) hrun
  expression v s hrun := exhausts_dialect_expression d r v s hrun

/-- The productions of `d` make progress from every reader: they consume, their loops wind down and
their calls go inside, so that one production alone obeys the rule of the expression, and no more
than the levels that are left are open at once. -/
theorem productions_progress :
    d.Progresses r ∧ LoopsWind r ∧ d.CallsInside r ∧
      (∀ p : Production Value,
        p = d.grammar.expressionOver p ↔ p = d.grammar.expression) ∧
      (∀ n s, Activations d r n s →
        s.toGo + n ≤ r.toGo ∧ (r.depth ≤ r.limit → n + 1 ≤ r.limit - r.depth + 1)) ∧
      d.LeavesInHand r :=
  ⟨d.progresses r, loopsWind r, d.callsInside r, eq_expressionOver_iff d,
    fun _ _ h => ⟨h.toGo_add_le, h.count_le⟩, d.leavesInHand r⟩

/-- In front of `((70))`, with two levels. One read is interrupted. -/
def Reader.doubled : Reader :=
  (Reader.fresh 2 [.byte Byte.openParen, .byte Byte.openParen, .fault ⟨.interrupted, none⟩,
    .byte 55, .byte 48, .byte Byte.closeParen, .byte Byte.closeParen]).fetch.2

theorem progress_of_doubled :
    ∃ s, Activations .standard .doubled 2 s ∧ s.toGo + 2 ≤ Reader.doubled.toGo ∧
      2 + 1 ≤ Reader.doubled.limit - Reader.doubled.depth + 1 ∧
      (∃ x t, s.lookahead.isDigit = true ∧ advance.run s = (.ok x, t) ∧
        Winds (digitStep s.position) (digitStep_moves s.position) 7 t s.toGo) ∧
      ∃ v t, Grammar.standard.expression.run .doubled = (.ok v, t) ∧
        (∃ k, 1 ≤ k ∧ Reader.doubled.Spent t k) ∧ t.Stops := by
  obtain ⟨hprogresses, -, -, -, hactivations, hleaves⟩ := productions_progress .standard .doubled
  have hcalls : Activations .standard .doubled 2
      Reader.doubled.advance.2.enter.advance.2.enter :=
    .inside (.inside .outermost (consults_of_openParen .standard rfl rfl (by decide)))
      (consults_of_openParen .standard rfl rfl (by decide))
  obtain ⟨htoGo, hcount⟩ := hactivations 2 _ hcalls
  refine ⟨_, hcalls, htoGo, hcount (by decide), ?_, ?_⟩
  · obtain ⟨-, hloops, -⟩ := productions_progress .standard
      Reader.doubled.advance.2.enter.advance.2.enter
    exact ⟨_, _, rfl, rfl, hloops.digits _ _ rfl rfl _ _⟩
  · have hvalue : (Grammar.standard.expression.run .doubled).1 = .ok 70 := by decide +kernel
    have hrun : Grammar.standard.expression.run .doubled =
        (.ok 70, (Grammar.standard.expression.run .doubled).2) := Prod.ext hvalue rfl
    exact ⟨70, _, hrun, hprogresses.expression 70 _ hrun, hleaves.expression 70 _ hrun⟩

end Reckon
