import Reckon.Proofs.Syntax.Levels

/-!
# Where a limit is passed

An evaluation of a tree under a limit that the tree does not stay within fails behind the first
symbol that leads below the limit, unless an operation fails before.
-/

namespace Reckon

open Byte

namespace OpenLevels

variable {d : Dialect} {l : OpenLevels} {limit column : Nat} {text : List UInt8}

/-- The symbol in front of this column is the first that leads below `limit`. -/
def Crosses (d : Dialect) (l : OpenLevels) (limit : Nat) (text : List UInt8) (column : Nat) :
    Prop :=
  ∃ front b back, text = front ++ b :: back ∧ column = front.length + 1 ∧ l.peak d front ≤ limit ∧
    ((l.afterAll front).after b).depth d = limit + 1

theorem Crosses.append (h : l.Crosses d limit text column) (more : List UInt8) :
    l.Crosses d limit (text ++ more) column := by
  obtain ⟨front, b, back, rfl, hcolumn, hfront, hb⟩ := h
  exact ⟨front, b, back ++ more, by simp, hcolumn, hfront, hb⟩

theorem Crosses.behind (before : List UInt8) (hbefore : l.peak d before ≤ limit)
    (h : (l.afterAll before).Crosses d limit text column) :
    l.Crosses d limit (before ++ text) (before.length + column) := by
  obtain ⟨front, b, back, rfl, rfl, hfront, hb⟩ := h
  refine ⟨before ++ front, b, back, by simp, by simp; omega, ?_, by rwa [afterAll_append]⟩
  rw [peak_append]
  omega

/-- A text that ends behind the column is enough. -/
theorem Crosses.of_append {more : List UInt8} (hcolumn : column ≤ text.length)
    (h : l.Crosses d limit (text ++ more) column) : l.Crosses d limit text column := by
  obtain ⟨front, b, back, htext, rfl, hfront, hb⟩ := h
  rw [List.append_cons] at htext
  obtain ⟨rest, rfl⟩ : front ++ [b] <+: text :=
    List.prefix_of_prefix_length_le ⟨back, htext.symm⟩ ⟨more, rfl⟩ (by simpa using hcolumn)
  exact ⟨front, b, rest, by simp, rfl, hfront, hb⟩

theorem Crosses.isOpening (h : l.Crosses d limit text column) :
    ∃ front b back, text = front ++ b :: back ∧ column = front.length + 1 ∧
      l.peak d front ≤ limit ∧ (b = openParen ∨ d = .ternary ∧ b = star) ∧
      (l.afterAll (front ++ [b])).depth d = limit + 1 := by
  obtain ⟨front, b, back, htext, hcolumn, hfront, hb⟩ := h
  refine ⟨front, b, back, htext, hcolumn, hfront, ?_, by rwa [afterAll_append]⟩
  have := depth_afterAll_le_peak (d := d) (l := l) front
  rcases depth_after_le (d := d) (l := l.afterAll front) b with hle | ⟨hopening, -⟩
  · omega
  · exact hopening

theorem Crosses.lt_depth_add_length (h : l.Crosses d limit text column) :
    limit < l.depth d + text.length := by
  obtain ⟨front, b, back, rfl, -, -, -, hb⟩ := h.isOpening
  have hlast := depth_afterAll_le_peak (d := d) (l := l) (front ++ [b])
  have hlength := peak_le_length (d := d) (l := l) (front ++ [b])
  simp only [List.length_append, List.length_cons, List.length_nil] at *
  omega

end OpenLevels

namespace Tree

open OpenLevels

variable {d : Dialect} {c : Category} {limit : Nat}

theorem limited_eq_ok_iff (depth column : Nat) :
    limited limit depth column = .ok () ↔ depth < limit := by
  unfold limited
  split <;> simp <;> omega

theorem limited_eq_error_iff (depth column : Nat) (e : Failure) :
    limited limit depth column = .error e ↔ limit ≤ depth ∧ e = .tooDeep limit ⟨0, column⟩ := by
  unfold limited
  split <;> simp [*, eq_comm]

theorem located_ne_tooDeep (place : Position) (x : Except ArithmeticError Int) (n : Nat)
    (place' : Position) : located place x ≠ .error (.tooDeep n place') := by
  cases x <;> simp [located]

theorem nesting_le_of_walk (t : Tree d c) {depth column : Nat} {i : Int} (hdepth : depth ≤ limit)
    (h : t.walk (limited limit) depth column = .ok i) : depth + t.nesting ≤ limit := by
  induction t generalizing depth column i with
  | literal n => exact hdepth
  | parens inner ih =>
    obtain ⟨_, hguard, h⟩ := (bind_eq_ok_iff ..).mp h
    have hlt := (limited_eq_ok_iff ..).mp hguard
    have := ih hlt h
    rw [nesting]
    omega
  | single operand ih => exact ih hdepth h
  | raised base exponent ihb ihx =>
    obtain ⟨_, hb, h⟩ := (bind_eq_ok_iff ..).mp h
    obtain ⟨_, hx, -⟩ := (bind_eq_ok_iff ..).mp h
    have := ihb hdepth hb
    have := ihx hdepth hx
    rw [nesting]
    omega
  | start addend ih => exact ih hdepth h
  | more left sign right ihl ihr =>
    obtain ⟨_, hl, h⟩ := (bind_eq_ok_iff ..).mp h
    obtain ⟨_, hr, -⟩ := (bind_eq_ok_iff ..).mp h
    have := ihl hdepth hl
    have := ihr hdepth hr
    rw [nesting]
    omega
  | whole sum ih => exact ih hdepth h
  | starred base exponent ihb ihx =>
    obtain ⟨_, hb, h⟩ := (bind_eq_ok_iff ..).mp h
    obtain ⟨_, hguard, h⟩ := (bind_eq_ok_iff ..).mp h
    obtain ⟨_, hx, -⟩ := (bind_eq_ok_iff ..).mp h
    have := ihb hdepth hb
    have hlt := (limited_eq_ok_iff ..).mp hguard
    have := ihx hlt hx
    rw [nesting]
    omega

theorem peak_le_of_walk (t : Tree d c) {l : OpenLevels} {depth column : Nat} {i : Int}
    (hl : l.depth d = depth) (hdepth : depth ≤ limit)
    (h : t.walk (limited limit) depth column = .ok i) : l.peak d t.yield ≤ limit := by
  have := nesting_le_of_walk t hdepth h
  rw [peak_yield, hl]
  exact this

/-- A tree that nests too deep is given up behind the first symbol that leads too deep. -/
theorem crosses_of_walk (t : Tree d c) {l : OpenLevels} {depth column n : Nat} {place : Position}
    (hl : l.depth d = depth) (hdepth : depth ≤ limit)
    (h : t.walk (limited limit) depth column = .error (.tooDeep n place)) :
    n = limit ∧ ∃ k, place = ⟨0, column + k⟩ ∧ l.Crosses d limit t.yield k := by
  induction t generalizing l depth column with
  | literal i => exact (located_ne_tooDeep _ _ _ _ h).elim
  | @parens d inner ih =>
    rcases (bind_eq_error_iff ..).mp h with hguard | ⟨_, hguard, h⟩
    · obtain ⟨hle, he⟩ := (limited_eq_error_iff ..).mp hguard
      obtain ⟨rfl, rfl⟩ := Failure.tooDeep.inj he
      refine ⟨rfl, 1, rfl, [], openParen, inner.yield ++ [closeParen], rfl, rfl, ?_, ?_⟩
      · show l.depth d ≤ n
        omega
      · rw [afterAll_nil, depth_openParen]
        omega
    · have hlt := (limited_eq_ok_iff ..).mp hguard
      obtain ⟨rfl, k, rfl, hk⟩ := ih (l := l.after openParen) (by rw [depth_openParen, hl]) hlt h
      refine ⟨rfl, 1 + k, by rw [Nat.add_assoc], ?_⟩
      refine Crosses.behind [openParen] ?_ (hk.append [closeParen])
      rw [peak_cons, peak, depth_openParen]
      omega
  | single operand ih => exact ih hl hdepth h
  | raised base exponent ihb ihx =>
    rcases (bind_eq_error_iff ..).mp h with hb | ⟨i, hb, h⟩
    · obtain ⟨rfl, k, rfl, hk⟩ := ihb hl hdepth hb
      exact ⟨rfl, k, rfl, hk.append _⟩
    rcases (bind_eq_error_iff ..).mp h with hx | ⟨j, hx, h⟩
    · have hbase : (l.afterAll base.yield).depth .standard = depth := by
        rw [depth_afterAll_yield base (by decide), hl]
      obtain ⟨rfl, k, rfl, hk⟩ :=
        ihx (l := ((l.afterAll base.yield).after star).after star) hbase hdepth hx
      refine ⟨rfl, base.yield.length + (2 + k), by congr 1; omega, ?_⟩
      refine .behind _ (peak_le_of_walk base hl hdepth hb) (.behind [star, star] ?_ hk)
      have hstar (l : OpenLevels) : (l.after star).depth .standard = l.depth .standard := rfl
      simp only [peak, hstar]
      omega
    · exact (located_ne_tooDeep _ _ _ _ h).elim
  | start addend ih => exact ih hl hdepth h
  | @more d left sign right ihl ihr =>
    rcases (bind_eq_error_iff ..).mp h with hleft | ⟨i, hleft, h⟩
    · obtain ⟨rfl, k, rfl, hk⟩ := ihl hl hdepth hleft
      exact ⟨rfl, k, rfl, hk.append _⟩
    rcases (bind_eq_error_iff ..).mp h with hright | ⟨j, hright, h⟩
    · have hl' : (l.afterAll left.yield).depth d = depth := by
        rw [depth_afterAll_yield left (by decide), hl]
      obtain ⟨rfl, k, rfl, hk⟩ := ihr hl' hdepth hright
      refine ⟨rfl, left.yield.length + (1 + k), by congr 1; omega, ?_⟩
      refine .behind _ (peak_le_of_walk left hl hdepth hleft) (.behind [sign.byte] ?_ ?_)
      · rw [peak_cons, peak, after_sign]
        omega
      · rwa [afterAll_cons, after_sign, afterAll_nil]
    · exact (located_ne_tooDeep _ _ _ _ h).elim
  | whole sum ih => exact ih hl hdepth h
  | starred base exponent ihb ihx =>
    rcases (bind_eq_error_iff ..).mp h with hb | ⟨i, hb, h⟩
    · obtain ⟨rfl, k, rfl, hk⟩ := ihb hl hdepth hb
      exact ⟨rfl, k, rfl, hk.append _⟩
    have hl' : (l.afterAll base.yield).depth .ternary = depth := by
      rw [depth_afterAll_yield base (by decide), hl]
    have hpeak := peak_le_of_walk base hl hdepth hb
    rcases (bind_eq_error_iff ..).mp h with hguard | ⟨_, hguard, h⟩
    · obtain ⟨hle, he⟩ := (limited_eq_error_iff ..).mp hguard
      obtain ⟨rfl, rfl⟩ := Failure.tooDeep.inj he
      refine ⟨rfl, base.yield.length + 1, rfl, base.yield, star, exponent.yield, rfl, rfl, hpeak,
        ?_⟩
      rw [depth_star]
      omega
    rcases (bind_eq_error_iff ..).mp h with hx | ⟨j, hx, h⟩
    · have hlt := (limited_eq_ok_iff ..).mp hguard
      obtain ⟨rfl, k, rfl, hk⟩ := ihx (l := (l.afterAll base.yield).after star)
        (by rw [depth_star, hl']) hlt hx
      refine ⟨rfl, base.yield.length + (1 + k), by congr 1; omega, ?_⟩
      refine .behind _ hpeak (.behind [star] ?_ hk)
      rw [peak_cons, peak, depth_star]
      omega
    · exact (located_ne_tooDeep _ _ _ _ h).elim

end Tree

end Reckon
