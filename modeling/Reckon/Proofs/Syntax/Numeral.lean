import Mathlib.Data.List.Induction
import Reckon.Symbol

/-!
# Numerals

The texts of literals: `0`, or digits that do not start with `0`.
-/

namespace Reckon

namespace Byte

def IsDigit (b : UInt8) : Prop := zero ≤ b ∧ b ≤ nine

instance (b : UInt8) : Decidable (IsDigit b) := inferInstanceAs (Decidable (_ ∧ _))

def digit (b : UInt8) : Nat := b.toNat - 48

/-- The number that digits stand for, most significant first. -/
def number (bytes : List UInt8) : Nat := bytes.foldl (fun n b => 10 * n + digit b) 0

theorem number_append_one (bytes : List UInt8) (b : UInt8) :
    number (bytes ++ [b]) = 10 * number bytes + digit b := by
  simp [number, List.foldl_append]

theorem number_le_append (bytes more : List UInt8) : number bytes ≤ number (bytes ++ more) := by
  induction more using List.reverseRecOn with
  | nil => simp
  | append_singleton more b ih =>
    rw [← List.append_assoc, number_append_one]
    omega

end Byte

namespace Symbol

theorem digit?_byte (b : UInt8) :
    (byte b).digit? = if Byte.IsDigit b then some (Byte.digit b) else none := rfl

@[simp]
theorem isDigit_byte (b : UInt8) : (byte b).isDigit = decide (Byte.IsDigit b) := by
  unfold isDigit
  rw [digit?_byte]
  split <;> simp_all

@[simp]
theorem isDigit_finish : finish.isDigit = false := rfl

/-- The symbol in front of a reader with these bytes ahead. -/
def first : List UInt8 → Symbol
  | [] => .finish
  | b :: _ => .byte b

@[simp]
theorem first_nil : first [] = .finish := rfl

@[simp]
theorem first_cons (b : UInt8) (bytes : List UInt8) : first (b :: bytes) = .byte b := rfl

theorem eq_cons_of_first {bytes : List UInt8} {b : UInt8} (h : first bytes = .byte b) :
    ∃ rest, bytes = b :: rest := by
  cases bytes with
  | nil => simp at h
  | cons c rest =>
    obtain rfl : c = b := by simpa using h
    exact ⟨rest, rfl⟩

theorem eq_cons_of_isDigit_first {bytes : List UInt8} (h : (first bytes).isDigit = true) :
    ∃ lead rest, bytes = lead :: rest ∧ Byte.IsDigit lead := by
  cases bytes with
  | nil => simp at h
  | cons lead rest => exact ⟨lead, rest, rfl, by simpa using h⟩

end Symbol

inductive Numeral where
  | zero
  | digits (lead : UInt8) (more : List UInt8) (lead_digit : Byte.IsDigit lead)
    (lead_ne : lead ≠ Byte.zero) (more_digits : ∀ b ∈ more, Byte.IsDigit b)

namespace Numeral

def bytes : Numeral → List UInt8
  | zero => [Byte.zero]
  | digits lead more _ _ _ => lead :: more

def value (n : Numeral) : Nat := Byte.number n.bytes

def ofDigit (b : UInt8) (h : Byte.IsDigit b) : Numeral :=
  if h0 : b = Byte.zero then zero else digits b [] h h0 (by simp)

@[simp]
theorem bytes_ofDigit (b : UInt8) (h : Byte.IsDigit b) : (ofDigit b h).bytes = [b] := by
  unfold ofDigit
  split
  · next h0 => rw [h0]; rfl
  · rfl

theorem isDigit_of_mem_bytes (n : Numeral) : ∀ b ∈ n.bytes, Byte.IsDigit b := by
  cases n with
  | zero => simp only [bytes, List.mem_singleton]; rintro b rfl; decide
  | digits lead more hlead _ hmore =>
    intro b hb
    rcases List.mem_cons.mp hb with rfl | hb
    · exact hlead
    · exact hmore b hb

theorem bytes_ne_nil (n : Numeral) : n.bytes ≠ [] := by
  cases n <;> simp [bytes]

theorem bytes_injective {m n : Numeral} (h : m.bytes = n.bytes) : m = n := by
  cases m with
  | zero =>
    cases n with
    | zero => rfl
    | digits lead more _ hne _ =>
      simp only [bytes, List.cons.injEq] at h
      exact absurd h.1.symm hne
  | digits lead more _ hne _ =>
    cases n with
    | zero =>
      simp only [bytes, List.cons.injEq] at h
      exact absurd h.1 hne
    | digits lead' more' _ _ _ =>
      simp only [bytes, List.cons.injEq] at h
      obtain ⟨rfl, rfl⟩ := h
      rfl

theorem exists_run (bytes : List UInt8) :
    ∃ run rest, bytes = run ++ rest ∧ (∀ b ∈ run, Byte.IsDigit b) ∧
      (Symbol.first rest).isDigit = false := by
  induction bytes with
  | nil => exact ⟨[], [], rfl, by simp, rfl⟩
  | cons b bytes ih =>
    by_cases hb : Byte.IsDigit b
    · obtain ⟨run, rest, rfl, hrun, hrest⟩ := ih
      refine ⟨b :: run, rest, rfl, ?_, hrest⟩
      intro c hc
      rcases List.mem_cons.mp hc with rfl | hc
      · exact hb
      · exact hrun c hc
    · exact ⟨[], b :: bytes, rfl, by simp, by simpa using hb⟩

theorem takeWhile_digits {run rest : List UInt8} (hrun : ∀ b ∈ run, Byte.IsDigit b)
    (hrest : (Symbol.first rest).isDigit = false) :
    (run ++ rest).takeWhile (fun b => decide (Byte.IsDigit b)) = run := by
  rw [List.takeWhile_append_of_pos (by simpa using hrun)]
  cases rest with
  | nil => simp
  | cons b rest => rw [List.takeWhile_cons_of_neg (by simpa using hrest), List.append_nil]

end Numeral

end Reckon
