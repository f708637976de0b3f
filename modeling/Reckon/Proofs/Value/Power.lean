import Mathlib.Algebra.Group.Int.Even
import Reckon.Proofs.Value.Exact

/-!
# Powers on the whole domain

Every base and every exponent have one answer, and the unbounded integers tell which. Repeated
squaring does not fail on the way to a power that is in range.
-/

namespace Reckon.Value

open Exact

/-! ## Repeated squaring from one -/

theorem mul?_of_abs_le_one {a b : Value} (ha : |a.toInt| ≤ 1) (hb : |b.toInt| ≤ 1) :
    ∃ c, a.mul? b = some c ∧ c.toInt = a.toInt * b.toInt ∧ |c.toInt| ≤ 1 := by
  have hle : |a.toInt * b.toInt| ≤ 1 := by
    rw [abs_mul]
    exact mul_le_one₀ ha (abs_nonneg _) hb
  have hrange : InRange (a.toInt * b.toInt) := by
    have hbounds := abs_le.mp hle
    unfold InRange
    omega
  have hc := ofInt?_of_inRange hrange
  have htoInt := toInt_of_ofInt? hc
  exact ⟨_, hc, htoInt, by rwa [htoInt]⟩

/-- The bases 0, 1 and -1 never leave their own range. -/
theorem timesPower?_of_abs_le_one (acc base : Value) (n : Nat) (hacc : |acc.toInt| ≤ 1)
    (hbase : |base.toInt| ≤ 1) :
    timesPower? acc base n = ofInt? (acc.toInt * base.toInt ^ n) := by
  induction n using Nat.strong_induction_on generalizing acc base with
  | _ n ih =>
    obtain ⟨square, hsquare, hi, hsmall⟩ := mul?_of_abs_le_one hbase hbase
    obtain ⟨next, hnext, hj, hnextSmall⟩ : ∃ next,
        (if n % 2 = 1 then acc.mul? base else some acc) = some next ∧
          next.toInt = acc.toInt * base.toInt ^ (n % 2) ∧ |next.toInt| ≤ 1 := by
      rcases Nat.mod_two_eq_zero_or_one n with heven | hodd
      · exact ⟨acc, by simp [heven], by simp [heven], hacc⟩
      · obtain ⟨product, hproduct, hk, hle⟩ := mul?_of_abs_le_one hacc hbase
        exact ⟨product, by simp [hodd, hproduct], by simp [hodd, hk], hle⟩
    rw [timesPower?, hnext, Option.bind_some, hsquare, Option.bind_some]
    rcases (by omega : n = 0 ∨ n = 1 ∨ 2 ≤ n) with rfl | rfl | hn
    · rw [if_pos rfl, eq_comm, ofInt?_eq_some_iff]
      simp
    · rw [if_neg (by omega), if_pos rfl, eq_comm, ofInt?_eq_some_iff]
      simpa using hj
    · rw [if_neg (by omega), if_neg (by omega), ih _ (by omega) next square hnextSmall hsmall, hi,
        hj, mul_assoc, ← pow_two, ← pow_mul, ← pow_add, Nat.mod_add_div]

theorem timesPower?_one (base : Value) (n : Nat) :
    timesPower? 1 base n = ofInt? (base.toInt ^ n) := by
  have hone : (1 : Value).toInt = 1 := rfl
  rcases le_or_gt |base.toInt| 1 with hsmall | hlarge
  · rw [timesPower?_of_abs_le_one 1 base n (by rw [hone]; rfl) hsmall, hone, one_mul]
  · rw [timesPower?_eq 1 base n (by decide) hlarge, hone, one_mul]

/-! ## The answer to every base and exponent -/

theorem raise_of_nonneg {base exponent : Int} (h1 : base ≠ 1) (hm1 : base ≠ -1)
    (h : 0 ≤ exponent) : raise base exponent = fit .power (base ^ exponent.toNat) := by
  rw [raise, power?, if_neg h1, if_neg hm1, if_neg (by omega)]

theorem power_of_nonneg {base exponent : Value} (h1 : base ≠ 1) (hm1 : base ≠ -1)
    (h : 0 ≤ exponent) :
    (base.power exponent).map Int64.toInt =
      fit .power (base.toInt ^ exponent.toInt.toNat) := by
  rw [power_exact, raise_of_nonneg]
  · exact fun h => h1 (Int64.toInt_inj.mp h)
  · exact fun h => hm1 (Int64.toInt_inj.mp h)
  · exact Int64.le_iff_toInt_le.mp h

theorem two_le_abs {base : Value} (h0 : base ≠ 0) (h1 : base ≠ 1) (hm1 : base ≠ -1) :
    2 ≤ |base.toInt| := by
  have h0 : base.toInt ≠ 0 := fun h => h0 (Int64.toInt_inj.mp h)
  have h1 : base.toInt ≠ 1 := fun h => h1 (Int64.toInt_inj.mp h)
  have hm1 : base.toInt ≠ -1 := fun h => hm1 (Int64.toInt_inj.mp h)
  rcases abs_cases base.toInt with ⟨h, _⟩ | ⟨h, _⟩ <;> omega

/-- The bases 1 and -1 take every exponent, and no other base a negative one. Otherwise there is a
power exactly if the unbounded one is in range, and repeated squaring finds it. -/
theorem power_domain (base exponent : Value) :
    (base = 1 → base.power exponent = .ok 1) ∧
    (base = -1 → base.power exponent = .ok (if Even exponent.toInt then 1 else -1)) ∧
    (base ≠ 1 → base ≠ -1 → exponent < 0 →
      base.power exponent = .error (.negativeExponent exponent)) ∧
    (base ≠ 1 → base ≠ -1 → 0 ≤ exponent →
      ((∃ v, v.toInt = base.toInt ^ exponent.toInt.toNat ∧ base.power exponent = .ok v) ↔
        InRange (base.toInt ^ exponent.toInt.toNat)) ∧
      (base.power exponent = .error (.overflow .power) ↔
        ¬ InRange (base.toInt ^ exponent.toInt.toNat))) ∧
    (∀ n, timesPower? 1 base n = ofInt? (base.toInt ^ n)) ∧
    (base ≠ 0 → base ≠ 1 → base ≠ -1 → 2 ^ 32 ≤ exponent.toInt →
      ¬ InRange (base.toInt ^ exponent.toInt.toNat)) := by
  refine ⟨?_, ?_, ?_, ?_, timesPower?_one base, ?_⟩
  · rintro rfl
    exact if_pos rfl
  · rintro rfl
    rw [power, if_neg (by decide), if_pos rfl]
    simp only [Int.even_iff]
  · intro h1 hm1 hneg
    rw [power, if_neg h1, if_neg hm1, if_pos hneg]
  · intro h1 hm1 hnonneg
    have hexact := power_of_nonneg h1 hm1 hnonneg
    rcases hpower : base.power exponent with cause | v <;> rw [hpower] at hexact
    · obtain ⟨hrange, rfl⟩ := (fit_eq_error_iff ..).mp hexact.symm
      refine ⟨⟨?_, fun h => absurd h hrange⟩, fun _ => hrange, fun _ => rfl⟩
      rintro ⟨v, -, h⟩
      cases h
    · obtain ⟨hv, hrange⟩ := (fit_eq_ok_iff ..).mp hexact.symm
      rw [← hv] at hrange
      refine ⟨⟨fun _ => hrange, fun _ => ⟨v, hv.symm, rfl⟩⟩, fun h => ?_, fun h => absurd hrange h⟩
      cases h
  · intro h0 h1 hm1 hlarge hrange
    have hnone := ofInt?_pow_of_huge (two_le_abs h0 h1 hm1) (n := exponent.toInt.toNat) (by omega)
    rw [ofInt?_of_inRange hrange] at hnone
    cases hnone

/-- The least value is a power of -2, but the power of 2 with the same exponent is none. -/
theorem power_domain_edge :
    (∃ v, v.toInt = -2 ^ 63 ∧ power (-2) 63 = .ok v) ∧
      power 2 63 = .error (.overflow .power) ∧
      power (-1) Int64.minValue = .ok 1 := by
  obtain ⟨-, -, -, hminus, -⟩ := power_domain (-2) 63
  obtain ⟨-, -, -, hplus, -⟩ := power_domain 2 63
  obtain ⟨-, hneg, -⟩ := power_domain (-1) Int64.minValue
  refine ⟨?_, (hplus (by decide) (by decide) (by decide)).2.mpr (by decide), ?_⟩
  · exact (hminus (by decide) (by decide) (by decide)).1.mpr (by decide)
  · rw [hneg rfl, if_pos (by decide)]

end Reckon.Value
