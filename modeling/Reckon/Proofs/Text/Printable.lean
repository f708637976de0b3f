import Reckon.Failure
import Reckon.Proofs.Syntax.Decimal

/-!
# Printable texts

What is said about a failure holds printable ASCII only. A byte of the input comes into it in its
escaped form.
-/

namespace Reckon

namespace Text

/-- All bytes are printable ASCII. -/
def IsPrintable (s : String) : Prop := ∀ b ∈ bytes s, Escape.isPrintableByte b = true

instance (s : String) : Decidable (IsPrintable s) :=
  decidable_of_iff ((bytes s).all Escape.isPrintableByte = true) List.all_eq_true

theorem isPrintable_append {s t : String} (hs : IsPrintable s) (ht : IsPrintable t) :
    IsPrintable (s ++ t) := by
  rw [IsPrintable, bytes_append]
  exact List.forall_mem_append.mpr ⟨hs, ht⟩

theorem newline_not_mem_bytes {s : String} (h : IsPrintable s) : Byte.newline ∉ bytes s := by
  intro hmem
  exact absurd (h _ hmem) (by decide)

theorem isPrintable_of_isDigit {b : UInt8} (h : Byte.IsDigit b) :
    Escape.isPrintableByte b = true := by
  obtain ⟨hlow, hhigh⟩ := h
  rw [Escape.isPrintableByte, Bool.and_eq_true, decide_eq_true_eq, decide_eq_true_eq]
  exact ⟨UInt8.le_trans (by decide) hlow, UInt8.le_trans hhigh (by decide)⟩

theorem isPrintable_ofNat (n : Nat) : IsPrintable (Decimal.ofNat n) := by
  obtain ⟨numeral, hbytes, -⟩ := Decimal.exists_numeral n
  intro b hb
  rw [bytes, ← hbytes] at hb
  exact isPrintable_of_isDigit (numeral.isDigit_of_mem_bytes b hb)

theorem isPrintable_ofInt (i : Int) : IsPrintable (Decimal.ofInt i) := by
  cases i with
  | ofNat n => exact isPrintable_ofNat n
  | negSucc n => exact isPrintable_append (by decide) (isPrintable_ofNat (n + 1))

/-! ## Escaped bytes -/

/-- A character of printable ASCII. -/
def isPrintableChar (c : Char) : Bool := (String.utf8EncodeChar c).all Escape.isPrintableByte

theorem isPrintable_ofList {chars : List Char} (h : chars.all isPrintableChar = true) :
    IsPrintable (String.ofList chars) := by
  intro b hb
  rw [bytes, Decimal.toUTF8_ofList, List.mem_flatMap] at hb
  obtain ⟨c, hc, hb⟩ := hb
  exact List.all_eq_true.mp (List.all_eq_true.mp h c hc) b hb

theorem utf8EncodeChar_ofUInt8 {b : UInt8} (h : b ≤ 0x7f) :
    String.utf8EncodeChar (Char.ofUInt8 b) = [b] := by
  have hsize : (Char.ofUInt8 b).utf8Size = 1 := by
    refine Char.utf8Size_eq_one_iff.mpr ?_
    rw [UInt32.le_iff_toNat_le]
    exact h
  rw [String.utf8EncodeChar_eq_singleton hsize]
  exact congrArg (fun b => [b]) (UInt8.toUInt8_toUInt32 b)

theorem isPrintableChar_ofUInt8 {b : UInt8} (h : Escape.isPrintableByte b = true) :
    isPrintableChar (Char.ofUInt8 b) = true := by
  have hle : b ≤ 0x7e := (by simpa [Escape.isPrintableByte] using h : _ ∧ b ≤ 0x7e).2
  rw [isPrintableChar, utf8EncodeChar_ofUInt8 (UInt8.le_trans hle (by decide))]
  simpa using h

theorem isPrintableChar_hexDigit : ∀ d < 16, isPrintableChar (Escape.hexDigit d) = true := by
  decide

theorem isPrintable_escape (b : UInt8) : IsPrintable (String.ofList (Escape.byte b)) := by
  have hslash : isPrintableChar '\\' = true := by decide
  have hx : isPrintableChar 'x' = true := by decide
  -- Three controls have a letter of their own, quotes keep their character behind a backslash.
  unfold Escape.byte
  split
  · decide
  split
  · decide
  split
  · decide
  split
  · next h =>
    have hb : Escape.isPrintableByte b = true := by
      have hquote : b = 34 ∨ b = 39 ∨ b = 92 := by simpa [or_assoc] using h
      rcases hquote with rfl | rfl | rfl <;> decide
    exact isPrintable_ofList (by simp [hslash, isPrintableChar_ofUInt8 hb])
  split
  · next h => exact isPrintable_ofList (by simp [isPrintableChar_ofUInt8 h])
  · have hhigh := isPrintableChar_hexDigit (b.toNat / 16) (by have := b.toNat_lt; omega)
    have hlow := isPrintableChar_hexDigit (b.toNat % 16) (Nat.mod_lt _ (by decide))
    exact isPrintable_ofList (by simp [hslash, hx, hhigh, hlow])

end Text

open Text

theorem Symbol.isPrintable_text (s : Symbol) : IsPrintable s.text := by
  cases s with
  | byte b =>
    have hquote : IsPrintable "'" := by decide
    exact isPrintable_append (isPrintable_append hquote (isPrintable_escape b)) hquote
  | finish => decide

theorem Expected.isPrintable_text (e : Expected) : IsPrintable e.text := by
  cases e with
  | byte b => exact Symbol.isPrintable_text _
  | operand | digit | literalEnd | finish => decide

theorem Value.isPrintable_text (v : Value) : IsPrintable v.text := isPrintable_ofInt v.toInt

theorem Value.newline_not_mem_bytes (v : Value) : Byte.newline ∉ v.bytes :=
  Text.newline_not_mem_bytes v.isPrintable_text

theorem ArithmeticError.isPrintable_text (e : ArithmeticError) : IsPrintable e.text := by
  cases e with
  | overflow operation => cases operation <;> decide
  | negativeExponent exponent =>
    exact isPrintable_append (by decide) exponent.isPrintable_text

/-- A failure with a place ends with it, and all of its text is printable. -/
theorem Failure.exists_text {e : Failure} {place : Position} (h : e.position? = some place) :
    ∃ what, e.text = what ++ " at " ++ place.text ∧ IsPrintable what := by
  cases e with
  | refused refusal =>
    obtain rfl : refusal.position = place := Option.some.inj h
    have hassoc (a b c d : String) : a ++ (b ++ c ++ d) = a ++ b ++ c ++ d := by
      simp only [String.append_assoc]
    refine ⟨_, hassoc _ _ _ _, isPrintable_append (by decide) ?_⟩
    refine isPrintable_append (isPrintable_append ?_ (by decide))
      refusal.found.isPrintable_text
    exact isPrintable_append (by decide) refusal.expected.isPrintable_text
  | arithmetic cause position =>
    obtain rfl : position = place := Option.some.inj h
    exact ⟨cause.text, rfl, cause.isPrintable_text⟩
  | tooDeep limit position =>
    obtain rfl : position = place := Option.some.inj h
    exact ⟨_, rfl, isPrintable_append (by decide) (isPrintable_ofNat limit)⟩
  | unreadable fault => exact nomatch h

theorem Position.isPrintable_text (p : Position) : IsPrintable p.text :=
  isPrintable_append (isPrintable_append (isPrintable_ofNat p.line) (by decide))
    (isPrintable_ofNat p.column)

end Reckon
