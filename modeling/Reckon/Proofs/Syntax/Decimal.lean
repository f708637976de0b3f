import Reckon.Proofs.Syntax.Numeral
import Reckon.Value

/-!
# Printed values as literals

The text of a value that is not negative is a literal, and it stands for the same value again.
-/

namespace Reckon

/-- A text as it is written to a stream. -/
def Text.bytes (s : String) : List UInt8 := s.toUTF8.data.toList

theorem Text.bytes_append (s t : String) : bytes (s ++ t) = bytes s ++ bytes t := by
  simp [bytes, String.toByteArray_append]

/-- The text of a value in bytes. -/
def Value.bytes (v : Value) : List UInt8 := v.text.toUTF8.data.toList

namespace Decimal

theorem toUTF8_ofList (chars : List Char) :
    (String.ofList chars).toUTF8.data.toList = chars.flatMap String.utf8EncodeChar := by
  rw [String.toUTF8, String.toByteArray_ofList, List.utf8Encode, List.toList_data_toByteArray]

/-- A digit takes one byte. -/
theorem exists_byte {d : Nat} (hd : d < 10) :
    ∃ b, String.utf8EncodeChar (digit d) = [b] ∧ Byte.IsDigit b ∧ Byte.digit b = d := by
  have hall : ∀ d < 10, String.utf8EncodeChar (digit d) = [UInt8.ofNat (48 + d)] ∧
      Byte.IsDigit (UInt8.ofNat (48 + d)) ∧ Byte.digit (UInt8.ofNat (48 + d)) = d := by
    decide
  exact ⟨_, hall d hd⟩

theorem exists_numeral (n : Nat) :
    ∃ numeral : Numeral, numeral.bytes = (ofNat n).toUTF8.data.toList ∧ numeral.value = n := by
  rw [ofNat, toUTF8_ofList]
  induction n using Nat.strongRecOn with
  | ind n ih =>
    obtain ⟨b, hb, hdigit, hd⟩ := exists_byte (Nat.mod_lt n (by decide : 0 < 10))
    by_cases hn : n < 10
    · refine ⟨.ofDigit b hdigit, ?_, ?_⟩
      · rw [digits, if_pos hn, Numeral.bytes_ofDigit, ← hb, Nat.mod_eq_of_lt hn]
        simp
      · simp [Numeral.value, Byte.number, hd, Nat.mod_eq_of_lt hn]
    · obtain ⟨front, hbytes, hvalue⟩ := ih (n / 10) (by omega)
      cases front with
      | zero =>
        -- What is in front of the last digit does not begin with a zero.
        rw [show Numeral.zero.value = 0 from rfl] at hvalue
        omega
      | digits lead more hlead hne hmore =>
        have hmore' : ∀ c ∈ more ++ [b], Byte.IsDigit c := by
          simpa [or_imp, forall_and] using ⟨hmore, hdigit⟩
        refine ⟨.digits lead (more ++ [b]) hlead hne hmore', ?_, ?_⟩
        · rw [digits, if_neg hn, List.flatMap_append, ← hbytes]
          simp [Numeral.bytes, hb]
        · rw [Numeral.value, Numeral.bytes, ← List.cons_append, Byte.number_append_one, hd]
          rw [Numeral.value, Numeral.bytes] at hvalue
          omega

end Decimal

theorem Value.exists_numeral {v : Value} (h : 0 ≤ v.toInt) :
    ∃ numeral : Numeral, numeral.bytes = v.bytes ∧ (numeral.value : Int) = v.toInt := by
  obtain ⟨n, hn⟩ := Int.eq_ofNat_of_zero_le h
  obtain ⟨numeral, hbytes, hvalue⟩ := Decimal.exists_numeral n
  refine ⟨numeral, ?_, by rw [hvalue, hn]⟩
  rw [hbytes, Value.bytes, Value.text, hn]
  rfl

theorem Value.exists_numeral_of_neg {v : Value} (h : v.toInt < 0) :
    ∃ numeral : Numeral, Byte.minus :: numeral.bytes = v.bytes ∧
      -(numeral.value : Int) = v.toInt := by
  obtain ⟨n, hn⟩ := Int.eq_negSucc_of_lt_zero h
  obtain ⟨numeral, hbytes, hvalue⟩ := Decimal.exists_numeral (n + 1)
  refine ⟨numeral, ?_, by rw [hvalue, hn]; rfl⟩
  have hminus : Text.bytes "-" = [Byte.minus] := by decide
  rw [hbytes, ← List.singleton_append, ← hminus, Value.bytes, Value.text, hn]
  exact (Text.bytes_append _ _).symm

/-- The bytes are the numeral of `i`, with a minus in front if `i` is negative. -/
def IsDecimal (bytes : List UInt8) (i : Int) : Prop :=
  ∃ numeral : Numeral, (0 ≤ i ∧ numeral.bytes = bytes ∧ (numeral.value : Int) = i) ∨
    (i < 0 ∧ Byte.minus :: numeral.bytes = bytes ∧ -(numeral.value : Int) = i)

theorem Value.isDecimal_bytes (v : Value) : IsDecimal v.bytes v.toInt := by
  rcases Int.lt_or_le v.toInt 0 with h | h
  · obtain ⟨numeral, hbytes, hvalue⟩ := exists_numeral_of_neg h
    exact ⟨numeral, .inr ⟨h, hbytes, hvalue⟩⟩
  · obtain ⟨numeral, hbytes, hvalue⟩ := exists_numeral h
    exact ⟨numeral, .inl ⟨h, hbytes, hvalue⟩⟩

theorem Value.bytes_ne_nil (v : Value) : v.bytes ≠ [] := by
  obtain ⟨numeral, ⟨-, hbytes, -⟩ | ⟨-, hbytes, -⟩⟩ := v.isDecimal_bytes
  · exact hbytes ▸ numeral.bytes_ne_nil
  · exact hbytes ▸ List.cons_ne_nil _ _

end Reckon
