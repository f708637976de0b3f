import Reckon.Proofs.Production.Accounts
import Reckon.Proofs.Production.Settings
import Reckon.Proofs.Production.Traced

/-!
# Productions in the middle of a run

Where a reader stands, how deep it is and what it has counted does not change what a production
makes of the symbols in front of it. A subexpression means the same at every place and on every
level, as long as there are levels to go.
-/

namespace Reckon

/-- A fresh reader with the same symbols in front of it and as many levels to go. -/
def Reader.renewed (r : Reader) : Reader where
  source := r.source
  lookahead := r.lookahead
  position := .start
  depth := 0
  limit := r.limit - r.depth
  tally := ⟨1, 0, 0⟩
  log := #[.read r.lookahead .start]

theorem run_prime_renewed (r : Reader) :
    Production.prime.run (.fresh (r.limit - r.depth) (r.lookahead.outcome :: r.source)) =
      (.ok (), r.renewed) := by
  show Reader.fetch _ = _
  unfold Reader.fetch Reader.renewed
  cases r.lookahead <;> rfl

/-- The place where `r` stands, on the same line. -/
def Setting.midway (r : Reader) : Setting where
  start := r
  stop := .finish
  stop_isTerminator := rfl
  GoesOn _ source source' := source = source'
  next := by
    rintro s source _ rfl -
    rcases source.next with ⟨fault | x, rest⟩
    · exact .inr ⟨fault, rest, rest, rfl, rfl, rfl⟩
    · exact .inl ⟨x, rest, rest, rfl, by rw [Symbol.endedBy_finish], rfl⟩

theorem Setting.failure_midway (r : Reader) :
    (midway r).failure = Failure.moved r.position r.limit := by
  funext e
  exact congrArg (Failure.moved r.position r.limit) e.endedBy_finish

theorem Setting.alike_renewed (r : Reader) : (midway r).Alike r.renewed r :=
  ⟨(Symbol.endedBy_finish _).symm, rfl, rfl, rfl, rfl, rfl, rfl, rfl, rfl⟩

namespace Production

variable {α : Type}

/-- From `r`, `p` ends as it does from the renewed reader, only further on. -/
structure Displaced (p : Production α) (r : Reader) : Prop where
  outcome : (p.run r).1 = (p.run r.renewed).1.mapError (Failure.moved r.position r.limit)
  lookahead : (p.run r).2.lookahead = (p.run r.renewed).2.lookahead
  source : (p.run r).2.source = (p.run r.renewed).2.source
  position : (p.run r).2.position = r.position.beyond (p.run r.renewed).2.position
  depth : (p.run r).2.depth = r.depth ∧ (p.run r.renewed).2.depth = 0
  consumed : (p.run r).2.tally.consumed =
    r.tally.consumed + (p.run r.renewed).2.tally.consumed
  /-- The renewed reader has read one symbol before. -/
  reads : (p.run r).2.tally.reads + 1 = r.tally.reads + (p.run r.renewed).2.tally.reads
  deepest : (p.run r).2.tally.deepest =
    if (p.run r.renewed).2.tally.deepest = 0 then r.tally.deepest
    else max r.tally.deepest (r.depth + (p.run r.renewed).2.tally.deepest)
  /-- A reader that has recorded the level it is on. -/
  deepest_of_le : r.depth ≤ r.tally.deepest → (p.run r).2.tally.deepest =
    max r.tally.deepest (r.depth + (p.run r.renewed).2.tally.deepest)

theorem displaced_of_carries {f : α → α} (hf : f = id) {p : Production α} {r : Reader}
    (hp : ∃ actions, p.Performs r.renewed actions)
    (h : (Setting.midway r).Carries f p p r.renewed r) : Displaced p r := by
  obtain ⟨actions, hactions⟩ := hp
  obtain ⟨houtcome, halike⟩ := h (Setting.alike_renewed r)
  have hdepth : (p.run r.renewed).2.depth = 0 := by
    rw [hactions.run_snd]
    exact hactions.orderly.performAll_depth r.renewed
  have hdeepest : (p.run r).2.tally.deepest =
      if (p.run r.renewed).2.tally.deepest = 0 then r.tally.deepest
      else max r.tally.deepest (r.depth + (p.run r.renewed).2.tally.deepest) := halike.deepest
  refine ⟨?_, ?_, halike.source.symm, halike.position, ⟨?_, hdepth⟩, halike.consumed, halike.reads,
    hdeepest, fun hle => ?_⟩
  · rw [houtcome, hf, Setting.failure_midway]
    cases (p.run r.renewed).1 <;> rfl
  · rw [halike.lookahead]
    exact Symbol.endedBy_finish _
  · rw [halike.depth, hdepth]
    rfl
  · -- If no level was entered, the level of `r` itself has to be recorded.
    rw [hdeepest]
    split <;> omega

end Production

open Production

/-- What a production makes of the symbols in front of `r`, it makes of them from the start: only
the places move along, and a level that is too deep is told with the limit of `r`. Every reader
that actions lead to has recorded the level it is on. -/
theorem productions_displaced (d : Dialect) :
    (∀ r : Reader,
      prime.run (.fresh (r.limit - r.depth) (r.lookahead.outcome :: r.source)) =
          (.ok (), r.renewed) ∧
        Displaced literal r ∧ Displaced d.grammar.operand r ∧ Displaced d.grammar.addend r ∧
        (∀ v, Displaced (d.grammar.nextAddend v) r) ∧ Displaced d.grammar.expression r) ∧
      ∀ (limit : Nat) (source : Source) (r₀ : Reader),
        prime.run (.fresh limit source) = (.ok (), r₀) →
          ∀ actions before, Orderly limit actions → before <+: actions →
            (r₀.performAll before).depth ≤ (r₀.performAll before).tally.deepest := by
  refine ⟨fun r => ⟨run_prime_renewed r, ?_, ?_, ?_, fun v => ?_, ?_⟩, ?_⟩
  · exact displaced_of_carries rfl (Performs.simulation.literal _) Setting.carries_literal
  · exact displaced_of_carries rfl (Performs.exists_operand d _) (Setting.carries_operand d _ r)
  · exact displaced_of_carries rfl (Performs.exists_addend d _) (Setting.carries_addend d _ r)
  · exact displaced_of_carries Option.map_id (Performs.exists_nextAddend d v _)
      (Setting.carries_nextAddend d v _ r)
  · exact displaced_of_carries rfl (Performs.exists_expression d _)
      (Setting.carries_expression d _ r)
  · intro limit source r₀ hprime actions before horderly hbefore
    obtain ⟨s, -, rfl⟩ := Reader.eq_of_prime hprime
    exact (LevelAccount.performAll rfl rfl fun first hfirst =>
      horderly.count_prefix (hfirst.trans hbefore)).current

/-- A reader on its third line, four levels down, with `((2))` ahead and room for one more level. -/
def Reader.beforeTooDeep : Reader where
  source := .ofBytes [Byte.openParen, 50, Byte.closeParen, Byte.closeParen]
  lookahead := .openParen
  position := ⟨2, 11⟩
  depth := 4
  limit := 5
  tally := ⟨30, 29, 4⟩
  log := #[]

/-- The renewed reader fails at `0:2`, under a limit of one. -/
theorem expression_beforeTooDeep :
    (Grammar.standard.expression.run .beforeTooDeep).1 = .error (.tooDeep 5 ⟨2, 13⟩) ∧
      (Grammar.standard.expression.run .beforeTooDeep).2.tally = ⟨32, 31, 5⟩ := by
  have h : Displaced Grammar.standard.expression .beforeTooDeep :=
    ((productions_displaced .standard).1 .beforeTooDeep).2.2.2.2.2
  have houtcome : (Grammar.standard.expression.run Reader.beforeTooDeep.renewed).1 =
      .error (.tooDeep 1 ⟨0, 2⟩) := by
    decide +kernel
  have htally : (Grammar.standard.expression.run Reader.beforeTooDeep.renewed).2.tally =
      ⟨3, 2, 1⟩ := by
    decide +kernel
  refine ⟨by rw [h.outcome, houtcome]; rfl, ?_⟩
  have hreads := h.reads
  have hconsumed := h.consumed
  have hdeepest := h.deepest_of_le (by decide)
  rw [htally] at hreads hconsumed hdeepest
  rcases htally' : (Grammar.standard.expression.run .beforeTooDeep).2.tally with ⟨m, n, k⟩
  rw [htally'] at hreads hconsumed hdeepest
  obtain rfl : m = 32 := Nat.succ.inj hreads
  obtain rfl : n = 31 := hconsumed
  obtain rfl : k = 5 := hdeepest
  rfl

end Reckon
