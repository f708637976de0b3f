import Reckon.Proofs.Evaluation.Whole

/-!
# Where arithmetic fails

An operation is carried out long after its place was passed: behind its operands, and a power
behind its whole chain. The failure still names the place of the operation, also in a text that
breaks the grammar further on.
-/

namespace Reckon

open Production Byte

variable {d : Dialect} {text : List UInt8} {column : Nat}

/-- No operation begins with a newline. -/
theorem ArithmeticError.ArisesIn.exists_byte {cause : ArithmeticError}
    (h : cause.ArisesIn d text column) : ∃ b, text[column]? = some b ∧ b ≠ newline := by
  match cause, h with
  | .overflow .literal, ⟨_, ⟨lead, htext, hdigit, _⟩, _⟩ =>
    exact ⟨lead, htext, hdigit.ne_newline⟩
  | .overflow .addition, htext => exact ⟨plus, htext, by decide⟩
  | .overflow .subtraction, htext => exact ⟨minus, htext, by decide⟩
  | .overflow .power, ⟨htext, _⟩ => exact ⟨star, htext, by decide⟩
  | .negativeExponent _, ⟨⟨htext, _⟩, _⟩ => exact ⟨star, htext, by decide⟩

theorem newline_not_mem_take_succ {before ahead : List UInt8} (hbefore : newline ∉ before)
    (hcolumn : column ≤ before.length) {b : UInt8} (hb : (before ++ ahead)[column]? = some b)
    (hne : b ≠ newline) : newline ∉ (before ++ ahead).take (column + 1) := by
  rw [List.take_add_one, hb, List.take_append_of_le_length hcolumn]
  intro hmem
  rcases List.mem_append.mp hmem with hmem | hmem
  · exact hbefore (List.mem_of_mem_take hmem)
  · rw [Option.toList_some, List.mem_singleton] at hmem
    exact hne hmem.symm

/-- If arithmetic fails, the place is on the first line and the operation stands there: the sign
of a sum, the first star of a power whose exponent is negative or whose value is too large, or
the first digit of a literal that is too large as a whole. -/
theorem place_of_arithmetic (d : Dialect) (limit : Nat) (text : List UInt8)
    (cause : ArithmeticError) (place : Position)
    (h : (d.evaluate limit (.ofBytes text)).1 = .error (.arithmetic cause place)) :
    place.line = 0 ∧ newline ∉ text.take (place.column + 1) ∧
      cause.ArisesIn d text place.column := by
  have hmeets := meets_evaluation d limit text
  obtain ⟨r, hrun⟩ := (evaluate_eq_error_iff d limit _ _).mp h
  rw [Meets, hrun] at hmeets
  obtain ⟨_, _, before, ⟨hbefore, ahead, rfl, -⟩, -, hline, hcolumn, harises⟩ := hmeets
  obtain ⟨b, hb, hne⟩ := harises.exists_byte
  exact ⟨hline, newline_not_mem_take_succ hbefore hcolumn hb hne, harises⟩

/-- The text `2**2**(0-1)+(`. The second power fails when its chain is read, and the parenthesis
behind it is never closed. -/
def unclosedBehindPower : List UInt8 :=
  [50, star, star, 50, star, star, openParen, 48, minus, 49, closeParen, plus, openParen]

theorem place_of_unclosedBehindPower :
    (Dialect.standard.evaluate 1 (.ofBytes unclosedBehindPower)).1 =
        .error (.arithmetic (.negativeExponent (-1)) ⟨0, 4⟩) ∧
      newline ∉ unclosedBehindPower.take 5 ∧
      (unclosedBehindPower[4]? = some star ∧ unclosedBehindPower[5]? = some star) ∧
      (-1 : Value) < 0 := by
  have hrun : (Dialect.standard.evaluate 1 (.ofBytes unclosedBehindPower)).1 =
      .error (.arithmetic (.negativeExponent (-1)) ⟨0, 4⟩) := by
    decide +kernel
  obtain ⟨-, hline, ⟨hstar, hsecond⟩, hneg⟩ := place_of_arithmetic _ _ _ _ _ hrun
  exact ⟨hrun, hline, ⟨hstar, hsecond rfl⟩, hneg⟩

end Reckon
