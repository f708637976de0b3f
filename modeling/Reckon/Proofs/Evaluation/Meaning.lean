import Reckon.Proofs.Evaluation.Whole
import Reckon.Proofs.Syntax.Unambiguous

/-!
# What an evaluation computes

An evaluation succeeds exactly on the texts of trees that nest within the limit and fit, and then
with the value of the tree. On the text of a tree it fails as the evaluation of the tree does.
-/

namespace Reckon

/-- A power binds tighter than a sum and groups to the right. -/
theorem standard_evaluate_eq_ok_iff (text : List UInt8) (limit : Nat) (v : Value) :
    (Dialect.standard.evaluate limit (.ofBytes text)).1 = .ok v ↔
      ∃! t : Tree .standard .expression, t.yield = firstLine text ∧ t.nesting ≤ limit ∧
        t.Fits ∧ t.value = some v.toInt := by
  rw [evaluate_eq_ok_iff]
  constructor
  · rintro ⟨t, ht, hrest⟩
    refine ⟨t, ⟨ht, hrest⟩, ?_⟩
    rintro u ⟨hu, -⟩
    exact Tree.yield_injective (hu.trans ht.symm)
  · rintro ⟨t, h, -⟩
    exact ⟨t, h⟩

/-- A star takes the whole sum on its left and the whole rest of the level on its right, and
there is no other way to read a text. -/
theorem ternary_reading :
    (∀ t u : Tree .ternary .expression, t.yield = u.yield → t = u) ∧
      ∀ (text : List UInt8) (limit : Nat) (v : Value),
        (Dialect.ternary.evaluate limit (.ofBytes text)).1 = .ok v ↔
          ∃ t : Tree .ternary .expression, t.yield = firstLine text ∧ t.nesting ≤ limit ∧
            t.Fits ∧ t.value = some v.toInt := by
  constructor
  · intro t u h
    exact Tree.yield_injective h
  · intro text limit v
    exact evaluate_eq_ok_iff .ternary limit text v

/-! ## The first failure -/

/-- On the text of a tree within the limit the outcome is that of the tree: its value, or the
failure of the first operation that fails, with its place. -/
theorem evaluate_tree (d : Dialect) (t : Tree d .expression) (limit : Nat) (rest : List UInt8)
    (hnesting : t.nesting ≤ limit) (hrest : rest = [] ∨ rest.head? = some Byte.newline) :
    (d.evaluate limit (.ofBytes (t.yield ++ rest))).1.map Int64.toInt = t.evaluate 0 := by
  have hend : (Symbol.first rest).isTerminator = true := by
    rcases hrest with rfl | hhead
    · rfl
    · obtain ⟨more, rfl⟩ := List.head?_eq_some_iff.mp hhead
      rfl
  rw [evaluate_yield d limit t hend, t.walk_limited_eq_free limit 0 0 0 (by omega)]
  rfl

/-- The text `2**(0-1)-99999999999999999999`. Its power has no value and its last literal is too
large. -/
def Tree.twiceWrong : Tree .standard .expression :=
  .whole (.more
    (.start (.raised (.literal (.ofDigit 50 (by decide)))
      (.single (.parens (.whole (.more (.start (.single (.literal .zero))) .minus
        (.single (.literal (.ofDigit 49 (by decide))))))))))
    .minus
    (.single (.literal (.digits 57 (List.replicate 19 57) (by decide) (by decide)
      fun b hb => by rw [List.eq_of_mem_replicate hb]; decide))))

/-- The power comes first, so its failure is the one that is reported. -/
theorem evaluate_twiceWrong :
    (Dialect.standard.evaluate 1 (.ofBytes (Tree.twiceWrong.yield ++ [Byte.newline, 49]))).1.map
        Int64.toInt =
      .error (.arithmetic (.negativeExponent (-1)) ⟨0, 1⟩) :=
  evaluate_tree .standard Tree.twiceWrong 1 [Byte.newline, 49] (by decide) (.inr rfl)

end Reckon
