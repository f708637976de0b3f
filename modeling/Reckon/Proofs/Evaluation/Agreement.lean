import Reckon.Proofs.Evaluation.Whole
import Reckon.Proofs.Production.Starless
import Reckon.Proofs.Syntax.Stars
import Reckon.Proofs.Syntax.Translation

/-!
# Where the two dialects agree

On a line without stars an evaluation does not depend on the dialect, whatever comes of it. On a
line with stars at most one of the two gives a value, but a standard text can be translated.
-/

namespace Reckon

open Production

/-! ## Lines without stars -/

theorem Source.starless_ofBytes_iff (text : List UInt8) :
    (Source.ofBytes text).Starless ↔ Byte.star ∉ firstLine text := by
  have hline : (fun o : Outcome => decide (o ≠ .byte Byte.newline)) ∘ Outcome.byte =
      fun b => decide (b ≠ Byte.newline) := by
    funext b
    simp
  have hmem : Outcome.byte Byte.star ∈ (firstLine text).map Outcome.byte ↔
      Byte.star ∈ firstLine text := by
    simp
  rw [Source.Starless, Source.ofBytes, List.takeWhile_map, hline]
  exact not_congr hmem

/-- What comes behind an expression is the same in both dialects, up to a name in the log. -/
theorem run_whole_congr {g g' : Grammar} {r : Reader}
    (h : g.expression.run r = g'.expression.run r) :
    (g.whole.run r).1 = (g'.whole.run r).1 ∧ (g.whole.run r).2.tally = (g'.whole.run r).2.tally := by
  unfold Grammar.whole
  rcases hr : g.expression.run r with ⟨e | v, r'⟩ <;> rw [hr] at h
  · rw [run_bind_error hr, run_bind_error h.symm]
    exact ⟨rfl, rfl⟩
  · rw [run_bind_ok hr, run_bind_ok h.symm]
    rcases hend : requireEnd.run r' with ⟨e | _, r''⟩
    · rw [run_bind_error hend, run_bind_error hend]
      exact ⟨rfl, rfl⟩
    · rw [run_bind_ok hend, run_bind_ok hend]
      exact ⟨rfl, rfl⟩

theorem evaluate_eq_of_starless {source : Source} (h : source.Starless) (limit : Nat) :
    (Grammar.standard.evaluate limit source).1 = (Grammar.ternary.evaluate limit source).1 ∧
      (Grammar.standard.evaluate limit source).2.tally =
        (Grammar.ternary.evaluate limit source).2.tally := by
  have hfetch : (Reader.fresh limit source).fetch.2.Starless := .fetch nofun h
  unfold Grammar.evaluate Grammar.evaluation
  rcases hprime : prime.run (.fresh limit source) with ⟨e | _, r⟩
  · rw [run_bind_error hprime, run_bind_error hprime]
    exact ⟨rfl, rfl⟩
  · rw [run_bind_ok hprime, run_bind_ok hprime]
    rw [show (Reader.fresh limit source).fetch = _ from hprime] at hfetch
    exact run_whole_congr (Coincides.expression r hfetch).1

theorem starless_of_evaluate {text : List UInt8} {limit limit' : Nat} {v w : Value}
    (hstandard : (Dialect.standard.evaluate limit (.ofBytes text)).1 = .ok v)
    (hternary : (Dialect.ternary.evaluate limit' (.ofBytes text)).1 = .ok w) :
    Byte.star ∉ firstLine text := by
  obtain ⟨t, ht, -⟩ := (evaluate_eq_ok_iff .standard limit text v).mp hstandard
  obtain ⟨u, hu, -⟩ := (evaluate_eq_ok_iff .ternary limit' text w).mp hternary
  rw [← ht]
  exact Tree.star_not_mem_of_yield_eq (ht.trans hu.symm)

/-- Without a star both dialects come to the same value with the same counts, or to the same
failure, also if the source breaks off. With a star they never both come to a value. -/
theorem agree_exactly_on_starless :
    (∀ (limit : Nat) (source : Source), source.Starless →
      (Grammar.standard.evaluate limit source).1 = (Grammar.ternary.evaluate limit source).1 ∧
        (Grammar.standard.evaluate limit source).2.tally =
          (Grammar.ternary.evaluate limit source).2.tally) ∧
      (∀ text : List UInt8, (Source.ofBytes text).Starless ↔ Byte.star ∉ firstLine text) ∧
      ∀ (limit limit' : Nat) (text : List UInt8) (v w : Value),
        (Dialect.standard.evaluate limit (.ofBytes text)).1 = .ok v →
          (Dialect.ternary.evaluate limit' (.ofBytes text)).1 = .ok w →
            Byte.star ∉ firstLine text := by
  refine ⟨?_, Source.starless_ofBytes_iff, ?_⟩
  · intro limit source h
    exact evaluate_eq_of_starless h limit
  · intro limit limit' text v w hstandard hternary
    exact starless_of_evaluate hstandard hternary

/-- A sum that breaks off behind its sign, and the text `1+1`. -/
theorem agree_on_brokenSum :
    Source.Starless [.byte 49, .byte Byte.plus, .fault ⟨.connectionReset, none⟩] ∧
      (Grammar.ternary.evaluate 0
        [.byte 49, .byte Byte.plus, .fault ⟨.connectionReset, none⟩]).1 =
          .error (.unreadable ⟨.connectionReset, none⟩) ∧
      Byte.star ∉ firstLine [49, Byte.plus, 49] := by
  obtain ⟨hagree, -, hapart⟩ := agree_exactly_on_starless
  have hstarless : Source.Starless
      [.byte 49, .byte Byte.plus, .fault ⟨.connectionReset, none⟩] := by
    unfold Source.Starless
    decide
  refine ⟨hstarless, ?_, hapart 0 0 [49, Byte.plus, 49] 2 2 (by decide +kernel) (by decide +kernel)⟩
  rw [← (hagree 0 _ hstarless).1]
  decide +kernel

/-! ## Translated texts -/

/-- Under a limit that the tree stays within, its text is evaluated as the tree is. -/
theorem evaluate_yield_of_length_le {d : Dialect} (t : Tree d .expression) {limit : Nat}
    (h : t.yield.length ≤ limit) :
    (d.evaluate limit (.ofBytes t.yield)).1.map Int64.toInt =
      t.walk (fun _ _ => .ok ()) 0 0 := by
  have hnesting := t.nesting_le_length
  have hyield := @evaluate_yield d limit t [] rfl
  rw [List.append_nil] at hyield
  rw [hyield]
  exact t.walk_limited_eq_free limit 0 0 0 (by omega)

/-- A standard text and its translation come to the same value, or the same operation fails in
both for the same reason. -/
theorem evaluate_toTernary (t : Tree .standard .expression) (limit limit' : Nat)
    (hlimit : t.yield.length ≤ limit) (hlimit' : t.toTernary.yield.length ≤ limit') :
    SameButPlace (Dialect.standard.evaluate limit (.ofBytes t.yield)).1
      (Dialect.ternary.evaluate limit' (.ofBytes t.toTernary.yield)).1 := by
  refine .of_map (f := Int64.toInt) (fun _ _ h => Int64.toInt_inj.mp h) ?_
  rw [evaluate_yield_of_length_le t hlimit, evaluate_yield_of_length_le t.toTernary hlimit']
  exact t.walk_toTernary 0 0 0 0

/-- The text `3+4**(0-5)`. -/
def Tree.raisedToNegative : Tree .standard .expression :=
  .whole (.more (.start (.single (.literal (.ofDigit 51 (by decide))))) .plus
    (.raised (.literal (.ofDigit 52 (by decide)))
      (.single (.parens (.whole (.more (.start (.single (.literal .zero))) .minus
        (.single (.literal (.ofDigit 53 (by decide))))))))))

/-- Its translation is `3+(4*(0-5))`, where the power stands one column further right. -/
theorem evaluate_raisedToNegative :
    Tree.raisedToNegative.yield.length ≤ 10 ∧ Tree.raisedToNegative.toTernary.yield.length ≤ 11 ∧
      ∃ place, (Dialect.ternary.evaluate 11 (.ofBytes Tree.raisedToNegative.toTernary.yield)).1 =
        .error (.arithmetic (.negativeExponent (-5)) place) := by
  have hlimit : Tree.raisedToNegative.yield.length ≤ 10 := by decide
  have hlimit' : Tree.raisedToNegative.toTernary.yield.length ≤ 11 := by
    have hzero : Numeral.zero.bytes = [Byte.zero] := rfl
    simp [Tree.raisedToNegative, Tree.toTernary, Tree.starChain, hzero]
  have h := evaluate_toTernary .raisedToNegative 10 11 hlimit hlimit'
  have hstandard : (Dialect.standard.evaluate 10 (.ofBytes Tree.raisedToNegative.yield)).1 =
      .error (.arithmetic (.negativeExponent (-5)) ⟨0, 3⟩) := by
    decide +kernel
  rw [hstandard] at h
  refine ⟨hlimit, hlimit', ?_⟩
  generalize (Dialect.ternary.evaluate 11 _).1 = outcome at h ⊢
  cases h with
  | failure _ _ place => exact ⟨place, rfl⟩

end Reckon
