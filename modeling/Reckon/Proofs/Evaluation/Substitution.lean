import Reckon.Proofs.Evaluation.Whole
import Reckon.Proofs.Syntax.Context
import Reckon.Proofs.Syntax.Decimal
import Reckon.Proofs.Syntax.Levels

/-!
# Values in place of parentheses

An expression in parentheses can be replaced by the text of its value, whatever is around it.
-/

namespace Reckon

open Byte Context

variable {d : Dialect} {front text back : List UInt8} {limit : Nat}

theorem firstLine_append_of_mem (h : newline ∈ front) (ahead : List UInt8) :
    firstLine (front ++ ahead) = firstLine front := by
  induction front with
  | nil => exact absurd h List.not_mem_nil
  | cons b front ih =>
    by_cases hb : b = newline
    · simp [firstLine, hb]
    · have htail : newline ∈ front := (List.mem_cons.mp h).resolve_left (Ne.symm hb)
      simpa [firstLine, hb] using ih htail

theorem Tree.Gives.iff_eq {c : Category} {t : Tree d c} {i : Int} (h : t.Gives i) (j : Int) :
    t.Gives j ↔ i = j := by
  constructor
  · intro hj
    exact Option.some.inj (h.2.symm.trans hj.2)
  · rintro rfl
    exact h

/-- No tree of a text nests deeper than the text is long. -/
theorem evaluate_eq_ok_iff_of_length_le (h : text.length ≤ limit) (w : Value) :
    (d.evaluate limit (.ofBytes text)).1 = .ok w ↔
      ∃ t : Tree d .expression, t.yield = firstLine text ∧ t.Gives w.toInt := by
  rw [evaluate_eq_ok_iff]
  constructor
  · rintro ⟨t, ht, -, hw⟩
    exact ⟨t, ht, hw⟩
  · rintro ⟨t, ht, hw⟩
    have hnesting := t.nesting_le_length
    have hline : (firstLine text).length ≤ text.length :=
      (List.takeWhile_prefix _).length_le
    rw [ht] at hnesting
    exact ⟨t, ht, by omega, hw⟩

theorem evaluate_replaced {o o' : Tree d .operand} {limit' : Nat} {w : Value}
    (hgives : ∀ i, o.Gives i ↔ o'.Gives i) (ho : newline ∉ o.yield) (ho' : newline ∉ o'.yield)
    (hfront : NoDigitBefore front) (hback : (Symbol.first back).isDigit = false)
    (hlimit : (front ++ o.yield ++ back).length ≤ limit)
    (hlimit' : (front ++ o'.yield ++ back).length ≤ limit')
    (h : (d.evaluate limit (.ofBytes (front ++ o.yield ++ back))).1 = .ok w) :
    (d.evaluate limit' (.ofBytes (front ++ o'.yield ++ back))).1 = .ok w := by
  rw [evaluate_eq_ok_iff_of_length_le hlimit] at h
  rw [evaluate_eq_ok_iff_of_length_le hlimit']
  by_cases hline : newline ∈ front
  · -- The operand is not on the first line.
    rw [List.append_assoc, firstLine_append_of_mem hline] at h ⊢
    exact h
  · have hback' : (Symbol.first (firstLine back)).isDigit = false := by
      cases back with
      | nil => rfl
      | cons b back =>
        rw [firstLine, List.takeWhile_cons]
        split
        · exact hback
        · rfl
    rw [firstLine_append (by simp [hline, ho])] at h
    rw [firstLine_append (by simp [hline, ho'])]
    obtain ⟨t, ht, hw⟩ := h
    obtain ⟨x, rfl, hbefore, hafter⟩ := exists_fill_of_yield t o hfront hback' ht
    exact ⟨x.fill o', by rw [yield_fill, hbefore, hafter], (x.gives_fill hgives _).mp hw⟩

/-- What an expression in parentheses is in only depends on its value. It makes no difference if
the rest is well-formed, or how far the stars around the parentheses reach. -/
theorem evaluate_parenthesised_iff (d : Dialect) (front text back : List UInt8)
    (limit limit' inner : Nat) (v w : Value) (htext : newline ∉ text)
    (hfront : NoDigitBefore front) (hback : (Symbol.first back).isDigit = false)
    (hlimit : (front ++ openParen :: text ++ closeParen :: back).length ≤ limit)
    (hlimit' : (front ++ v.bytes ++ back).length ≤ limit')
    (hv : (d.evaluate inner (.ofBytes text)).1 = .ok v) (hnonneg : 0 ≤ v.toInt) :
    (d.evaluate limit (.ofBytes (front ++ openParen :: text ++ closeParen :: back))).1 = .ok w ↔
      (d.evaluate limit' (.ofBytes (front ++ v.bytes ++ back))).1 = .ok w := by
  obtain ⟨e, he, -, hgives⟩ := (evaluate_eq_ok_iff d inner text v).mp hv
  obtain ⟨n, hbytes, hn⟩ := Value.exists_numeral hnonneg
  have hline : firstLine text = text := by
    simpa [firstLine] using firstLine_append htext []
  have hparens : front ++ openParen :: text ++ closeParen :: back =
      front ++ (Tree.parens e).yield ++ back := by
    simp [he, hline]
  have hliteral : front ++ v.bytes ++ back = front ++ (Tree.literal n : Tree d _).yield ++ back := by
    simp [hbytes]
  have hsame (i : Int) : (Tree.parens e).Gives i ↔ (Tree.literal n : Tree d _).Gives i := by
    have hinner : (Tree.parens e).Gives v.toInt := hgives
    have hinRange : InRange n.value := hn.symm ▸ e.inRange_of_fits hgives.1 hgives.2
    have hdigits : (Tree.literal n : Tree d _).Gives v.toInt := ⟨hinRange, congrArg some hn⟩
    rw [hinner.iff_eq, hdigits.iff_eq]
  have hfree : newline ∉ (Tree.parens e).yield := by
    simp only [Tree.yield, he, hline, List.mem_cons, List.mem_append, List.not_mem_nil, htext]
    decide
  have hfree' : newline ∉ (Tree.literal n : Tree d _).yield := by
    intro hmem
    exact absurd (n.isDigit_of_mem_bytes newline hmem) (by decide)
  rw [hparens] at hlimit ⊢
  rw [hliteral] at hlimit' ⊢
  constructor
  · exact evaluate_replaced hsame hfree hfree' hfront hback hlimit hlimit'
  · exact evaluate_replaced (fun i => (hsame i).symm) hfree' hfree hfront hback hlimit' hlimit

/-- In the ternary `2*(1+1)-1` the exponent is the whole rest, as it is in `2*2-1`. -/
theorem evaluate_parenthesised_exponent :
    Value.bytes 2 = [50] ∧ (Dialect.ternary.evaluate 0 (.ofBytes [49, plus, 49])).1 = .ok 2 ∧
      (Dialect.ternary.evaluate 9
        (.ofBytes ([50, star] ++ openParen :: [49, plus, 49] ++ closeParen :: [minus, 49]))).1 =
          .ok 2 := by
  have hbytes : Value.bytes 2 = [50] := by
    rw [Value.bytes, Value.text, show (2 : Value).toInt = Int.ofNat 2 from rfl, Decimal.ofInt,
      Decimal.ofNat, Decimal.digits, if_pos (by decide), Decimal.toUTF8_ofList]
    rfl
  have hv : (Dialect.ternary.evaluate 0 (.ofBytes [49, plus, 49])).1 = .ok 2 := by
    decide +kernel
  have hfront : NoDigitBefore [50, star] := by
    intro b hb
    obtain rfl : star = b := by simpa using hb
    decide
  have hiff := evaluate_parenthesised_iff .ternary [50, star] [49, plus, 49] [minus, 49] 9 5 0 2 2
    (by decide) hfront rfl (by decide) (by simp [hbytes]) hv (by decide)
  refine ⟨hbytes, hv, hiff.mpr ?_⟩
  rw [hbytes]
  decide +kernel

end Reckon
