import Reckon.Proofs.Production.Accounts
import Reckon.Session

/-!
# Sessions keep their accounts

At every point of a session, between its steps and inside them, what the reader says about itself
is true. The steps may nest, and they may fail.
-/

namespace Reckon

open Production

/-! ## Steps as productions -/

namespace Step

mutual

/-- What a step runs. -/
def production : Step Dialect → Production Answer
  | look => .seen <$> lookahead
  | advance => .consumed <$> Production.advance
  | require b => (fun _ => .done) <$> Production.require b
  | requireEnd => (fun _ => .done) <$> Production.requireEnd
  | describe expected => .failure <$> ask (Reader.refusal expected)
  | literal => .value <$> Reckon.literal
  | expression d => .value <$> d.grammar.expression
  | addend d => .value <$> d.grammar.addend
  | operand d => .value <$> d.grammar.operand
  | nextAddend d value => (fun sum => sum.elim .missing .value) <$> d.grammar.nextAddend value
  | deeper steps => Production.deeper (productions steps)

def productions : List (Step Dialect) → Production Answer
  | [] => pure .done
  | step :: steps => do
    let _ ← production step
    productions steps

end

end Step

namespace Session

theorem report_eq_run (p : Production Answer) (r : Reader) :
    ((report p r).1.outcome, (report p r).2) = p.run r := by
  unfold report
  rcases p.run r with ⟨outcome, r'⟩
  rfl

mutual

theorem take_eq_run (step : Step Dialect) (r : Reader) :
    ((take Dialect.grammar step r).1.outcome, (take Dialect.grammar step r).2) =
      step.production.run r :=
  match step with
  | .look => report_eq_run _ r
  | .advance => report_eq_run _ r
  | .require _ => report_eq_run _ r
  | .requireEnd => report_eq_run _ r
  | .describe _ => report_eq_run _ r
  | .literal => report_eq_run _ r
  | .expression _ => report_eq_run _ r
  | .addend _ => report_eq_run _ r
  | .operand _ => report_eq_run _ r
  | .nextAddend _ _ => report_eq_run _ r
  | .deeper steps => by
    have hsteps := takeUntilFailure_eq_run steps r.enter
    rw [take, Step.production]
    rcases Nat.lt_or_ge r.depth r.limit with hlt | hle
    · rw [run_deeper_of_lt hlt, if_neg (Nat.not_le.mpr hlt), ← hsteps]
      rfl
    · rw [run_deeper_of_le hle, if_pos hle]
      rfl

theorem takeUntilFailure_eq_run (steps : List (Step Dialect)) (r : Reader) :
    ((takeUntilFailure Dialect.grammar steps r).1, (takeUntilFailure Dialect.grammar steps r).2.2) =
      (Step.productions steps).run r :=
  match steps with
  | [] => rfl
  | step :: steps => by
    have hstep := take_eq_run step r
    rw [takeUntilFailure, Step.productions]
    rcases houtcome : (take Dialect.grammar step r).1.outcome with e | answer <;>
      rw [houtcome] at hstep
    · rw [run_bind_error hstep.symm]
      simp only [houtcome]
    · rw [run_bind_ok hstep.symm, ← takeUntilFailure_eq_run steps]
      simp only [houtcome]

end

/-! ## The actions of a session -/

mutual

theorem exists_performs (step : Step Dialect) (r : Reader) :
    ∃ actions, step.production.Performs r actions :=
  match step with
  | .look => Performs.exists_map _ ⟨[], .ask _ r⟩
  | .advance => Performs.exists_map _ ⟨_, .advance r⟩
  | .require b => Performs.exists_map _ (Performs.exists_require b r)
  | .requireEnd => Performs.exists_map _ (Performs.simulation.requireEnd r)
  | .describe _ => Performs.exists_map _ ⟨[], .ask _ r⟩
  | .literal => Performs.exists_map _ (Performs.simulation.literal r)
  | .expression d => Performs.exists_map _ (Performs.exists_expression d r)
  | .addend d => Performs.exists_map _ (Performs.exists_addend d r)
  | .operand d => Performs.exists_map _ (Performs.exists_operand d r)
  | .nextAddend d value => Performs.exists_map _ (Performs.exists_nextAddend d value r)
  | .deeper steps => Performs.exists_deeper fun _ => exists_performs_all steps r.enter

theorem exists_performs_all (steps : List (Step Dialect)) (r : Reader) :
    ∃ actions, (Step.productions steps).Performs r actions :=
  match steps with
  | [] => ⟨[], .pure Answer.done r⟩
  | step :: steps =>
    Performs.bind (exists_performs step r) fun _ r' _ => exists_performs_all steps r'

end

/-- The steps, played from `r`, consist of these actions. -/
inductive Plays : List (Step Dialect) → Reader → List Action → Prop
  | nil (r : Reader) : Plays [] r []
  /-- The next step is played even if this one failed. -/
  | cons {step : Step Dialect} {steps : List (Step Dialect)} {r : Reader}
    {actions more : List Action} (h : step.production.Performs r actions)
    (hmore : Plays steps (take Dialect.grammar step r).2 more) :
    Plays (step :: steps) r (actions ++ more)

namespace Plays

variable {steps : List (Step Dialect)} {step : Step Dialect} {r : Reader} {actions : List Action}

theorem take_snd (h : step.production.Performs r actions) :
    (take Dialect.grammar step r).2 = r.performAll actions :=
  (congrArg Prod.snd (take_eq_run step r)).trans h.run_snd

theorem orderly (h : Plays steps r actions) : Orderly (r.limit - r.depth) actions := by
  induction h with
  | nil r => exact .nil
  | cons h _ ih =>
    rw [take_snd h, h.orderly.performAll_limit, h.orderly.performAll_depth] at ih
    exact h.orderly.append ih

end Plays

/-! ## Steps that change nothing -/

/-- A parenthesis that is never closed, and a read that fails behind the newline. -/
def broken : Source :=
  [.byte Byte.openParen, .byte 49, .fault ⟨.interrupted, none⟩, .byte Byte.newline,
    .fault ⟨.connectionReset, none⟩, .finish, .byte 50]

end Session

end Reckon
