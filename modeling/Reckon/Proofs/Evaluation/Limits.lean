import Reckon.Proofs.Evaluation.Reads
import Reckon.Proofs.Evaluation.Whole
import Reckon.Proofs.Production.Limited
import Reckon.Proofs.Syntax.Crossing

/-!
# What the limit does

A limit does nothing until an evaluation goes deeper. Then the evaluation fails behind the first
symbol that leads too deep. How deep it goes can be counted on the text alone.
-/

namespace Reckon

open Production Byte OpenLevels

/-- How many levels are open behind `text`. -/
def level (d : Dialect) (text : List UInt8) : Nat := (outermost.afterAll text).depth d

/-- The deepest level that an evaluation enters. -/
def Dialect.deepest (d : Dialect) (limit : Nat) (text : List UInt8) : Nat :=
  (d.grammar.evaluate limit (.ofBytes text)).2.tally.deepest

variable {d : Dialect} {limit free : Nat} {text : List UInt8}

theorem depth_outermost (d : Dialect) : outermost.depth d = 0 := by
  cases d <;> rfl

theorem isGreatest_level (d : Dialect) (text : List UInt8) :
    IsGreatest (level d '' {before | before <+: text}) (outermost.peak d text) :=
  isGreatest_peak text

/-! ## Where an evaluation goes too deep -/

/-- The text up to the opening that is refused can be completed, and in the completed text it is
the same opening that leads too deep. -/
theorem crosses_of_evaluate {n : Nat} {place : Position}
    (h : (d.grammar.evaluate limit (.ofBytes text)).1 = .error (.tooDeep n place)) :
    n = limit ∧ ∃ column, place = ⟨0, column⟩ ∧ outermost.Crosses d limit text column := by
  obtain ⟨k, hk⟩ := exists_takes d limit (Source.uninterrupted_ofBytes text)
  have hmeets := meets_evaluation d limit text
  rw [Meets, show d.grammar.evaluation.run _ = ((d.grammar.evaluate limit (.ofBytes text)).1,
    (d.grammar.evaluate limit (.ofBytes text)).2) from rfl, h] at hmeets
  obtain ⟨_, _, before, ⟨hline, ahead, rfl, hat⟩, ⟨more, t, ht⟩, hplace⟩ := hmeets
  obtain rfl : place = ⟨0, before.length⟩ := hplace
  have hlength : before.length = k - 1 :=
    congrArg Position.column (hat.position.symm.trans hk.position)
  have hpos := hk.pos
  have hcomplete : (d.grammar.evaluate limit (.ofBytes (before ++ more))).1 =
      .error (.tooDeep n ⟨0, before.length⟩) := by
    refine hk.blind n _ h _ (fun i hi => ?_) fun f => Source.outcome_ofBytes_ne_fault _ _ f
    have hi : i < before.length := by omega
    rw [Source.outcome_ofBytes_append hi, Source.outcome_ofBytes_append hi]
  have hwalk := @evaluate_yield d limit t [] rfl
  rw [List.append_nil, ht, evaluate_fst, hcomplete] at hwalk
  obtain ⟨rfl, column, hcolumn, hcrosses⟩ :=
    t.crosses_of_walk (depth_outermost d) (Nat.zero_le _) hwalk.symm
  obtain rfl : before.length = column := by simpa using hcolumn
  rw [ht] at hcrosses
  exact ⟨rfl, before.length, rfl, (hcrosses.of_append (Nat.le_refl _)).append ahead⟩

theorem evaluate_ne_tooDeep (d : Dialect) (h : text.length ≤ limit) (n : Nat) (place : Position) :
    (d.grammar.evaluate limit (.ofBytes text)).1 ≠ .error (.tooDeep n place) := by
  intro hrun
  obtain ⟨rfl, column, -, hcrosses⟩ := crosses_of_evaluate hrun
  have := hcrosses.lt_depth_add_length
  rw [depth_outermost] at this
  omega

/-! ## The threshold -/

/-- No limit above the deepest level makes a difference. -/
theorem evaluate_of_deepest_le (hfree : text.length ≤ free)
    (h : d.deepest free text ≤ limit) :
    (d.grammar.evaluate limit (.ofBytes text)).1 = (d.grammar.evaluate free (.ofBytes text)).1 ∧
      (d.grammar.evaluate limit (.ofBytes text)).2.tally =
        (d.grammar.evaluate free (.ofBytes text)).2.tally := by
  rcases Nat.le_total limit free with hle | hle
  · rcases evaluate_capped d hle (.ofBytes text) with ⟨hrun, -⟩ | ⟨-, hdeep⟩
    · rw [hrun]
      exact ⟨rfl, rfl⟩
    · exact absurd h (Nat.not_le.mpr hdeep)
  · rcases evaluate_capped d hle (.ofBytes text) with ⟨hrun, -⟩ | ⟨⟨place, r, hrun⟩, -⟩
    · rw [hrun]
      exact ⟨rfl, rfl⟩
    · exact absurd (congrArg Prod.fst hrun) (evaluate_ne_tooDeep d hfree free place)

theorem deepest_le (hfree : text.length ≤ free) : d.deepest free text ≤ free := by
  rcases evaluate_capped d (Nat.le_refl free) (.ofBytes text) with ⟨-, hle⟩ | ⟨⟨place, r, hrun⟩, -⟩
  · exact hle
  · exact absurd (congrArg Prod.fst hrun) (evaluate_ne_tooDeep d hfree free place)

theorem evaluate_of_lt_deepest (hfree : text.length ≤ free) (h : limit < d.deepest free text) :
    ∃ front b back, text = front ++ b :: back ∧ (b = openParen ∨ d = .ternary ∧ b = star) ∧
      level d (front ++ [b]) = limit + 1 ∧ (∀ before, before <+: front → level d before ≤ limit) ∧
      (d.grammar.evaluate limit (.ofBytes text)).1 =
        .error (.tooDeep limit ⟨0, front.length + 1⟩) := by
  have hle := deepest_le (d := d) hfree
  rcases evaluate_capped d (show limit ≤ free by omega) (.ofBytes text) with
    ⟨-, hdeepest⟩ | ⟨⟨place, r, hrun⟩, -⟩
  · exact absurd h (Nat.not_lt.mpr hdeepest)
  · have hfailed := congrArg Prod.fst hrun
    obtain ⟨-, column, rfl, hcrosses⟩ := crosses_of_evaluate hfailed
    obtain ⟨front, b, back, htext, rfl, hfront, hopening, hlevel⟩ := hcrosses.isOpening
    refine ⟨front, b, back, htext, hopening, hlevel, fun before hbefore => ?_, hfailed⟩
    exact Nat.le_trans ((isGreatest_level d front).2 ⟨before, hbefore, rfl⟩) hfront

/-- The nesting of its tree is the least limit under which a text has a value. -/
theorem deepest_eq_peak (hfree : text.length ≤ free) {out : Value × Tally}
    (h : (d.grammar.evaluate free (.ofBytes text)).1 = .ok out) :
    d.deepest free text = outermost.peak d (firstLine text) := by
  have hpeak {t : Tree d .expression} (ht : t.yield = firstLine text) :
      outermost.peak d (firstLine text) = t.nesting := by
    rw [← ht, peak_yield, depth_outermost, Nat.zero_add]
  have hvalue : (d.evaluate free (.ofBytes text)).1 = .ok out.1 := by
    rw [evaluate_fst, h]
    rfl
  apply Nat.le_antisymm
  · refine Nat.le_of_not_lt fun hlt => ?_
    obtain ⟨t, ht, -, hfits⟩ := (evaluate_eq_ok_iff d free text out.1).mp hvalue
    obtain ⟨_, _, _, -, -, -, -, hrun⟩ := evaluate_of_lt_deepest hfree (hpeak ht ▸ hlt)
    have hok := (evaluate_eq_ok_iff d t.nesting text out.1).mpr ⟨t, ht, Nat.le_refl _, hfits⟩
    rw [evaluate_fst, hrun] at hok
    exact nomatch hok
  · have hsame := (evaluate_of_deepest_le hfree (Nat.le_refl (d.deepest free text))).1
    rw [evaluate_fst, ← hsame, ← evaluate_fst] at hvalue
    obtain ⟨t, ht, hnesting, -⟩ := (evaluate_eq_ok_iff d _ text out.1).mp hvalue
    rwa [hpeak ht]

/-- A limit at or above the deepest level changes nothing. A lower one is reported behind the
first opening that leads below it, and on a text with a value these openings can be counted
without an evaluation. -/
theorem limit_threshold (d : Dialect) (text : List UInt8) (free : Nat)
    (hfree : text.length ≤ free) :
    (∀ n place, (d.grammar.evaluate free (.ofBytes text)).1 ≠ .error (.tooDeep n place)) ∧
      (∀ limit, d.deepest free text ≤ limit →
        (d.grammar.evaluate limit (.ofBytes text)).1 =
            (d.grammar.evaluate free (.ofBytes text)).1 ∧
          (d.grammar.evaluate limit (.ofBytes text)).2.tally =
            (d.grammar.evaluate free (.ofBytes text)).2.tally) ∧
      (∀ limit, limit < d.deepest free text → ∃ front b back,
        text = front ++ b :: back ∧ (b = openParen ∨ d = .ternary ∧ b = star) ∧
          level d (front ++ [b]) = limit + 1 ∧
          (∀ before, before <+: front → level d before ≤ limit) ∧
          (d.grammar.evaluate limit (.ofBytes text)).1 =
            .error (.tooDeep limit ⟨0, front.length + 1⟩)) ∧
      (∀ out, (d.grammar.evaluate free (.ofBytes text)).1 = .ok out →
        IsGreatest (level d '' {before | before <+: firstLine text}) (d.deepest free text)) ∧
      (d = .standard → openParen ∉ text → d.deepest free text = 0) := by
  refine ⟨evaluate_ne_tooDeep d hfree, fun limit hlimit => evaluate_of_deepest_le hfree hlimit,
    fun limit hlimit => evaluate_of_lt_deepest hfree hlimit, fun out hout => ?_,
    fun hstandard hparen => ?_⟩
  · rw [deepest_eq_peak hfree hout]
    exact isGreatest_level d _
  · refine Nat.eq_zero_of_not_pos fun hpos => ?_
    obtain ⟨front, b, back, rfl, rfl | ⟨hternary, -⟩, -⟩ := evaluate_of_lt_deepest hfree hpos
    · exact hparen (by simp)
    · exact nomatch hstandard.symm.trans hternary

/-- In `1*(1*1)` both stars and the parenthesis lead down, and nothing is closed before the end. -/
theorem deepest_starred :
    ([49, star, openParen, 49, star, 49, closeParen] : List UInt8).length ≤ 7 ∧
      IsGreatest (level .ternary '' {before |
        before <+: firstLine [49, star, openParen, 49, star, 49, closeParen]}) 3 := by
  have hdeepest :
      Dialect.ternary.deepest 7 [49, star, openParen, 49, star, 49, closeParen] = 3 := by
    decide +kernel
  have h := (limit_threshold .ternary [49, star, openParen, 49, star, 49, closeParen] 7
    (by decide)).2.2.2.1 (1, ⟨8, 7, 3⟩) (by decide +kernel)
  exact ⟨by decide, hdeepest ▸ h⟩

end Reckon
