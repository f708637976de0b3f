import Mathlib.Algebra.Order.Ring.Abs
import Mathlib.Tactic.Linarith
import Mathlib.Tactic.Ring
import Reckon.Value.Power

/-!
# What the checked operations compute

Each operation on values computes the same operation on unbounded integers, and fails exactly
if that result is out of range. For powers this says that no square or product on the way
overflows unless the power itself does.
-/

namespace Reckon

def InRange (i : Int) : Prop := -2 ^ 63 ≤ i ∧ i ≤ 2 ^ 63 - 1

instance (i : Int) : Decidable (InRange i) := inferInstanceAs (Decidable (_ ∧ _))

namespace Exact

/-- `i` if it is in range, else the overflow of `operation`. -/
def fit (operation : Operation) (i : Int) : Except ArithmeticError Int :=
  if InRange i then .ok i else .error (.overflow operation)

/-- The integer powers that are integers: 1 and -1 take any exponent, every other base takes one
that is not negative. The power `0 ^ 0` is 1. -/
def power? (base exponent : Int) : Option Int :=
  if base = 1 then some 1
  else if base = -1 then some (if exponent % 2 = 0 then 1 else -1)
  else if exponent < 0 then none
  else some (base ^ exponent.toNat)

def raise (base exponent : Int) : Except ArithmeticError Int :=
  match power? base exponent with
  | none => .error (.negativeExponent (Int64.ofInt exponent))
  | some i => fit .power i

theorem fit_eq_ok_iff (operation : Operation) (i j : Int) :
    fit operation i = .ok j ↔ i = j ∧ InRange j := by
  unfold fit
  split <;> grind

theorem fit_eq_error_iff (operation : Operation) (i : Int) (e : ArithmeticError) :
    fit operation i = .error e ↔ ¬ InRange i ∧ e = .overflow operation := by
  unfold fit
  split <;> grind

theorem raise_eq_ok_iff (base exponent i : Int) :
    raise base exponent = .ok i ↔ power? base exponent = some i ∧ InRange i := by
  unfold raise
  rcases power? base exponent with _ | j
  · simp
  · simp only [fit_eq_ok_iff, Option.some.injEq]

theorem power?_eq_none_iff (base exponent : Int) :
    power? base exponent = none ↔ base ≠ 1 ∧ base ≠ -1 ∧ exponent < 0 := by
  unfold power?
  split <;> grind

theorem raise_eq_error_cases {base exponent : Int} {e : ArithmeticError}
    (h : raise base exponent = .error e) :
    (exponent < 0 ∧ e = .negativeExponent (Int64.ofInt exponent)) ∨ e = .overflow .power := by
  unfold raise at h
  rcases hpower : power? base exponent with _ | i <;> rw [hpower] at h
  · obtain ⟨-, -, hneg⟩ := (power?_eq_none_iff ..).mp hpower
    exact .inl ⟨hneg, (Except.error.inj h).symm⟩
  · exact .inr ((fit_eq_error_iff ..).mp h).2

end Exact

namespace Value

open Exact

theorem inRange (v : Value) : InRange v.toInt :=
  ⟨v.le_toInt, by have := v.toInt_lt; omega⟩

theorem ofInt?_of_inRange {i : Int} (h : InRange i) : ofInt? i = some (Int64.ofInt i) := by
  unfold InRange at h
  exact if_pos ⟨by omega, by omega⟩

theorem ofInt?_of_not_inRange {i : Int} (h : ¬ InRange i) : ofInt? i = none := by
  rw [ofInt?_eq_none_iff]
  unfold InRange at h
  omega

theorem ofInt?_of_large {i : Int} (h : 2 ^ 63 < |i|) : ofInt? i = none := by
  rw [ofInt?_eq_none_iff]
  rcases lt_abs.mp h with h | h <;> omega

theorem toInt_of_ofInt? {i : Int} {v : Value} (h : ofInt? i = some v) : v.toInt = i :=
  (ofInt?_eq_some_iff i v).mp h

theorem orOverflow_ofInt? (operation : Operation) (i : Int) :
    (orOverflow operation (ofInt? i)).map Int64.toInt = fit operation i := by
  unfold fit
  split
  · next h =>
    rw [ofInt?_of_inRange h]
    exact congrArg Except.ok (Int64.toInt_ofInt_of_le h.1 (by have := h.2; omega))
  · next h => rw [ofInt?_of_not_inRange h]; rfl

theorem add_exact (a b : Value) :
    (a.add b).map Int64.toInt = fit .addition (a.toInt + b.toInt) :=
  orOverflow_ofInt? _ _

theorem sub_exact (a b : Value) :
    (a.sub b).map Int64.toInt = fit .subtraction (a.toInt - b.toInt) :=
  orOverflow_ofInt? _ _

/-- If ten times `a` does not fit, then one more digit does not help. -/
theorem appendDigit_exact (a : Value) (digit : Nat) (ha : 0 ≤ a.toInt) :
    (a.appendDigit digit).map Int64.toInt = fit .literal (10 * a.toInt + digit) := by
  rw [← orOverflow_ofInt?, appendDigit, mul?, show (10 : Value).toInt = 10 from rfl]
  congr 2
  by_cases h : InRange (a.toInt * 10)
  · rw [ofInt?_of_inRange h, Option.bind_some,
      Int64.toInt_ofInt_of_le h.1 (by have := h.2; omega), Int.mul_comm]
  · rw [ofInt?_of_not_inRange h, ofInt?_of_not_inRange, Option.bind_none]
    unfold InRange at h ⊢
    omega

/-! ## Repeated squaring -/

/-- There is no value whose square is `2 ^ 63`, so a square that is no value is larger. -/
theorem two_pow_lt_square {b : Int} (h : ¬ InRange (b * b)) : 2 ^ 63 < b * b := by
  have hb : 0 ≤ b * b := mul_self_nonneg b
  have hge : 2 ^ 63 ≤ b * b := by unfold InRange at h; omega
  rcases lt_or_ge |b| 3037000500 with hlt | hle
  · have := mul_self_le_mul_self (abs_nonneg b) (show |b| ≤ 3037000499 by omega)
    rw [abs_mul_abs_self] at this
    omega
  · have := mul_self_le_mul_self (by norm_num) hle
    rw [abs_mul_abs_self] at this
    omega

theorem le_abs_mul_pow {a b : Int} (ha : a ≠ 0) (hb : 2 ≤ |b|) (n : Nat) :
    |b| ^ n ≤ |a * b ^ n| := by
  rw [abs_mul, abs_pow]
  have h1 : 1 ≤ |a| := Int.one_le_abs ha
  have h2 : 0 ≤ |b| ^ n := by positivity
  nlinarith

/-- Once a product is too large, further factors keep it too large. -/
theorem ofInt?_mul_pow_of_not_inRange {a b : Int} (h : ¬ InRange a) (hb : 2 ≤ |b|) {n : Nat}
    (hn : n ≠ 0) : ofInt? (a * b ^ n) = none := by
  apply ofInt?_of_large
  have ha : 2 ^ 63 ≤ |a| := by
    unfold InRange at h
    rcases le_or_gt 0 a with h0 | h0
    · rw [abs_of_nonneg h0]; omega
    · rw [abs_of_neg h0]; omega
  have hpow : |b| ≤ |b| ^ n := le_self_pow₀ (by omega) hn
  rw [abs_mul, abs_pow]
  nlinarith

theorem mul_pow_half (a b : Int) (n : Nat) (h : n % 2 = 0) :
    a * b ^ n = a * (b * b) ^ (n / 2) := by
  rw [← pow_two, ← pow_mul, show 2 * (n / 2) = n by omega]

theorem mul_pow_half_odd (a b : Int) (n : Nat) (h : n % 2 = 1) :
    a * b ^ n = a * b * (b * b) ^ (n / 2) := by
  rw [← pow_two, ← pow_mul, mul_assoc, ← pow_succ', show 2 * (n / 2) + 1 = n by omega]

theorem square_step {a b : Int} {n : Nat} (ha : a ≠ 0) (hn : 0 < n) (h : ¬ InRange (b * b)) :
    ofInt? (a * (b * b) ^ n) = none := by
  have hsq := two_pow_lt_square h
  apply ofInt?_of_large
  have habs : |b * b| = b * b := abs_of_nonneg (mul_self_nonneg b)
  have hle := le_abs_mul_pow ha (b := b * b) (by omega) n
  have hpow : |b * b| ≤ |b * b| ^ n := le_self_pow₀ (by omega) (by omega)
  omega

theorem timesPower?_eq (acc base : Value) (n : Nat) (hacc : acc.toInt ≠ 0)
    (hbase : 2 ≤ |base.toInt|) :
    timesPower? acc base n = ofInt? (acc.toInt * base.toInt ^ n) := by
  induction n using Nat.strong_induction_on generalizing acc base with
  | _ n ih =>
    -- What is left to do once the accumulator has taken an odd factor.
    have hsquare (acc : Value) (hacc : acc.toInt ≠ 0) (hn : 2 ≤ n) :
        ((base.mul? base).bind fun square => timesPower? acc square (n / 2)) =
          ofInt? (acc.toInt * (base.toInt * base.toInt) ^ (n / 2)) := by
      by_cases h : InRange (base.toInt * base.toInt)
      · obtain ⟨square, hs⟩ : ∃ square, base.mul? base = some square :=
          ⟨_, ofInt?_of_inRange h⟩
        have hi : square.toInt = base.toInt * base.toInt := toInt_of_ofInt? hs
        have hlarge : 2 ≤ |square.toInt| := by
          rw [hi, abs_mul]
          nlinarith
        rw [hs, Option.bind_some, ih _ (by omega) acc square hacc hlarge, hi]
      · rw [mul?, ofInt?_of_not_inRange h, Option.bind_none, square_step hacc (by omega) h]
    rw [timesPower?]
    rcases (by omega : n = 0 ∨ n = 1 ∨ 2 ≤ n) with rfl | rfl | hn
    · rw [if_pos rfl, eq_comm, ofInt?_eq_some_iff]
      simp
    · rw [if_neg (by omega), if_pos (by omega), pow_one]
      rcases h : acc.mul? base with _ | product <;> simp only [mul?] at h <;> simp [h]
    · rw [if_neg (by omega)]
      simp only [if_neg (show n ≠ 1 by omega)]
      rcases Nat.mod_two_eq_zero_or_one n with heven | hodd
      · rw [if_neg (by omega), Option.bind_some, hsquare acc hacc hn, mul_pow_half _ _ _ heven]
      · rw [if_pos hodd, mul_pow_half_odd _ _ _ hodd]
        by_cases h : InRange (acc.toInt * base.toInt)
        · obtain ⟨product, hp⟩ : ∃ product, acc.mul? base = some product :=
            ⟨_, ofInt?_of_inRange h⟩
          have hi : product.toInt = acc.toInt * base.toInt := toInt_of_ofInt? hp
          have hne : product.toInt ≠ 0 := by
            rw [hi]
            refine mul_ne_zero hacc ?_
            rintro h0
            simp [h0] at hbase
          rw [hp, Option.bind_some, hsquare product hne hn, hi]
        · have hlarge : 2 ≤ |base.toInt * base.toInt| := by rw [abs_mul]; nlinarith
          rw [mul?, ofInt?_of_not_inRange h, Option.bind_none,
            ofInt?_mul_pow_of_not_inRange h hlarge (by omega)]

/-- No base but 0, 1 and -1 has a power in range with an exponent of more than 32 bits. -/
theorem ofInt?_pow_of_huge {base : Int} (hbase : 2 ≤ |base|) {n : Nat} (hn : 64 ≤ n) :
    ofInt? (base ^ n) = none := by
  apply ofInt?_of_large
  rw [abs_pow]
  calc (2 : Int) ^ 63 < 2 ^ 64 := by norm_num
    _ ≤ |base| ^ 64 := pow_le_pow_left₀ (by norm_num) hbase 64
    _ ≤ |base| ^ n := pow_le_pow_right₀ (by omega) hn

theorem power_exact (base exponent : Value) :
    (base.power exponent).map Int64.toInt = raise base.toInt exponent.toInt := by
  have h1 : base = 1 ↔ base.toInt = 1 := by rw [← Int64.toInt_inj]; rfl
  have hm1 : base = -1 ↔ base.toInt = -1 := by rw [← Int64.toInt_inj]; rfl
  have h0 : base = 0 ↔ base.toInt = 0 := by rw [← Int64.toInt_inj]; rfl
  have hneg : exponent < 0 ↔ exponent.toInt < 0 := Int64.lt_iff_toInt_lt
  have hx0 : exponent = 0 ↔ exponent.toInt = 0 := by rw [← Int64.toInt_inj]; rfl
  simp only [power, raise, power?, h1, hm1, h0, hneg, hx0]
  split
  · rfl
  split
  · split <;> rfl
  split
  · simp [Except.map, Int64.ofInt_toInt]
  simp only
  split
  · next hb =>
    rw [hb]
    split
    · next hx => rw [hx]; rfl
    · rw [zero_pow (by omega)]; rfl
  have hbase : 2 ≤ |base.toInt| := by
    rcases le_or_gt 0 base.toInt with h | h
    · rw [abs_of_nonneg h]; omega
    · rw [abs_of_neg h]; omega
  split
  · rw [timesPower?_eq 1 base _ (by decide) hbase, show (1 : Value).toInt = 1 from rfl, one_mul,
      orOverflow_ofInt?]
  · next hx =>
    have hnone := ofInt?_pow_of_huge hbase (n := exponent.toInt.toNat) (by
      unfold exponentBound at hx; omega)
    rw [← orOverflow_ofInt?, hnone]
    rfl

end Value

end Reckon
