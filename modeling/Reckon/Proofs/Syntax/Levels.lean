import Mathlib.Order.Bounds.Basic
import Reckon.Proofs.Syntax.Tree

/-!
# Levels of a text

How many levels deep a text is behind each of its beginnings, counted symbol by symbol and without
a tree. On the text of a tree the deepest level is the nesting of the tree.
-/

namespace Reckon

open Byte

/-- The levels that are open behind a text. -/
structure OpenLevels where
  /-- The stars so far on the innermost level. -/
  stars : Nat
  /-- The stars so far on the levels around it, from the inside out. -/
  around : List Nat

namespace OpenLevels

def outermost : OpenLevels := ⟨0, []⟩

/-- A closing parenthesis takes the stars inside it away with it. -/
def after (l : OpenLevels) (b : UInt8) : OpenLevels :=
  if b = openParen then ⟨0, l.stars :: l.around⟩
  else if b = closeParen then
    match l.around with
    | [] => l
    | stars :: around => ⟨stars, around⟩
  else if b = star then { l with stars := l.stars + 1 }
  else l

def afterAll (l : OpenLevels) (text : List UInt8) : OpenLevels := text.foldl after l

/-- Every open parenthesis is a level. A single star opens a level too, double stars do not. -/
def depth (l : OpenLevels) : Dialect → Nat
  | .standard => l.around.length
  | .ternary => l.around.length + (l.stars + l.around.sum)

/-- The depth of the deepest beginning of a text. -/
def peak (d : Dialect) (l : OpenLevels) : List UInt8 → Nat
  | [] => l.depth d
  | b :: text => max (l.depth d) ((l.after b).peak d text)

variable {d : Dialect} {c : Category} {l : OpenLevels}

@[simp]
theorem afterAll_nil : l.afterAll [] = l := rfl

@[simp]
theorem afterAll_cons (b : UInt8) (text : List UInt8) :
    l.afterAll (b :: text) = (l.after b).afterAll text := rfl

@[simp]
theorem afterAll_append (text more : List UInt8) :
    l.afterAll (text ++ more) = (l.afterAll text).afterAll more := List.foldl_append

theorem after_openParen : l.after openParen = ⟨0, l.stars :: l.around⟩ := rfl

theorem after_closeParen (inside : Nat) :
    (OpenLevels.mk inside (l.stars :: l.around)).after closeParen = l := rfl

theorem after_star : l.after star = { l with stars := l.stars + 1 } := rfl

theorem after_sign (s : Sign) : l.after s.byte = l := by
  cases s <;> rfl

theorem after_digit {b : UInt8} (hb : IsDigit b) : l.after b = l := by
  have hne {special : UInt8} (hspecial : ¬ IsDigit special) : b ≠ special := by
    rintro rfl
    exact hspecial hb
  unfold after
  rw [if_neg (hne (by decide)), if_neg (hne (by decide)), if_neg (hne (by decide))]

theorem depth_openParen : (l.after openParen).depth d = l.depth d + 1 := by
  rw [after_openParen]
  cases d <;> simp only [depth, List.length_cons, List.sum_cons]; omega

theorem depth_star : (l.after star).depth .ternary = l.depth .ternary + 1 := by
  rw [after_star]
  simp only [depth]
  omega

/-- Stars count in the ternary dialect alone. -/
theorem depth_of_stars {k : Nat} (h : d = .ternary → k = 0) :
    (OpenLevels.mk (l.stars + k) l.around).depth d = l.depth d := by
  cases d with
  | standard => rfl
  | ternary => rw [h rfl]; rfl

/-- Only an opening symbol leads one level down. -/
theorem depth_after_le (b : UInt8) :
    (l.after b).depth d ≤ l.depth d ∨
      (b = openParen ∨ (d = .ternary ∧ b = star)) ∧ (l.after b).depth d = l.depth d + 1 := by
  by_cases hopen : b = openParen
  · subst hopen
    exact .inr ⟨.inl rfl, depth_openParen⟩
  by_cases hclose : b = closeParen
  · subst hclose
    left
    obtain ⟨stars, _ | ⟨next, around⟩⟩ := l
    · exact Nat.le_refl _
    · show (OpenLevels.mk next around).depth d ≤ _
      cases d <;> simp only [depth, List.length_cons, List.sum_cons] <;> omega
  by_cases hstar : b = star
  · subst hstar
    cases d with
    | standard => exact .inl (Nat.le_refl _)
    | ternary => exact .inr ⟨.inr ⟨rfl, rfl⟩, depth_star⟩
  · left
    rw [after, if_neg hopen, if_neg hclose, if_neg hstar]

/-! ## The deepest level -/

theorem depth_le_peak (text : List UInt8) : l.depth d ≤ l.peak d text := by
  cases text with
  | nil => exact Nat.le_refl _
  | cons b text => exact Nat.le_max_left _ _

@[simp]
theorem peak_cons (b : UInt8) (text : List UInt8) :
    l.peak d (b :: text) = max (l.depth d) ((l.after b).peak d text) := rfl

theorem peak_append (text more : List UInt8) :
    l.peak d (text ++ more) = max (l.peak d text) ((l.afterAll text).peak d more) := by
  induction text generalizing l with
  | nil =>
    have := depth_le_peak (d := d) (l := l) more
    simp only [List.nil_append, afterAll_nil, peak]
    omega
  | cons b text ih =>
    rw [List.cons_append, peak_cons, peak_cons, afterAll_cons, ih]
    omega

theorem depth_afterAll_le_peak (text : List UInt8) : (l.afterAll text).depth d ≤ l.peak d text := by
  have h := peak_append (d := d) (l := l) text []
  rw [List.append_nil] at h
  have : (l.afterAll text).peak d [] = (l.afterAll text).depth d := rfl
  omega

theorem exists_depth_eq_peak (text : List UInt8) :
    ∃ before, before <+: text ∧ (l.afterAll before).depth d = l.peak d text := by
  induction text generalizing l with
  | nil => exact ⟨[], List.nil_prefix, rfl⟩
  | cons b text ih =>
    obtain ⟨before, hbefore, hdepth⟩ := ih (l := l.after b)
    rw [peak_cons]
    rcases Nat.le_total (l.depth d) ((l.after b).peak d text) with hle | hle
    · refine ⟨b :: before, List.cons_prefix_cons.mpr ⟨rfl, hbefore⟩, ?_⟩
      rw [Nat.max_eq_right hle, ← hdepth, afterAll_cons]
    · exact ⟨[], List.nil_prefix, (Nat.max_eq_left hle).symm⟩

theorem isGreatest_peak (text : List UInt8) :
    IsGreatest ((fun before => (l.afterAll before).depth d) '' {before | before <+: text})
      (l.peak d text) := by
  constructor
  · exact exists_depth_eq_peak text
  · rintro _ ⟨before, ⟨more, rfl⟩, rfl⟩
    rw [peak_append]
    exact Nat.le_trans (depth_afterAll_le_peak before) (Nat.le_max_left _ _)

/-- A level takes a symbol to open. -/
theorem peak_le_length (text : List UInt8) : l.peak d text ≤ l.depth d + text.length := by
  induction text generalizing l with
  | nil => exact Nat.le_refl _
  | cons b text ih =>
    have := ih (l := l.after b)
    have := depth_after_le (d := d) (l := l) b
    rw [peak_cons, List.length_cons]
    omega

/-! ## Texts of trees -/

theorem afterAll_digits {run : List UInt8} (hrun : ∀ b ∈ run, IsDigit b) : l.afterAll run = l := by
  induction run with
  | nil => rfl
  | cons b run ih =>
    rw [afterAll_cons, after_digit (hrun b List.mem_cons_self)]
    exact ih fun b hb => hrun b (List.mem_cons_of_mem _ hb)

theorem peak_digits {run : List UInt8} (hrun : ∀ b ∈ run, IsDigit b) :
    l.peak d run = l.depth d := by
  induction run with
  | nil => rfl
  | cons b run ih =>
    rw [peak_cons, after_digit (hrun b List.mem_cons_self),
      ih fun b hb => hrun b (List.mem_cons_of_mem _ hb), Nat.max_self]

/-- A tree closes what it opens. Only the stars of its own level stay, and of the ternary trees
only an expression has any. -/
theorem afterAll_yield (t : Tree d c) (l : OpenLevels) :
    ∃ k, l.afterAll t.yield = ⟨l.stars + k, l.around⟩ ∧
      (c ≠ .expression → d = .ternary → k = 0) := by
  induction t generalizing l with
  | literal n => exact ⟨0, afterAll_digits n.isDigit_of_mem_bytes, fun _ _ => rfl⟩
  | parens inner ih =>
    obtain ⟨k, hk, -⟩ := ih (l.after openParen)
    refine ⟨0, ?_, fun _ _ => rfl⟩
    rw [Tree.yield, afterAll_cons, afterAll_append, hk]
    exact after_closeParen (0 + k)
  | single operand ih => exact (ih l).imp fun k h => ⟨h.1, fun _ => h.2 (by decide)⟩
  | raised base exponent ihb ihx =>
    obtain ⟨k, hk, -⟩ := ihb l
    obtain ⟨m, hm, -⟩ := ihx (((⟨l.stars + k, l.around⟩ : OpenLevels).after star).after star)
    refine ⟨k + 2 + m, ?_, fun _ h => nomatch h⟩
    rw [Tree.yield, afterAll_append, hk, afterAll_cons, afterAll_cons, hm]
    simp [after_star, Nat.add_assoc]
  | start addend ih => exact (ih l).imp fun k h => ⟨h.1, fun _ => h.2 (by decide)⟩
  | more left sign right ihl ihr =>
    obtain ⟨k, hk, hk0⟩ := ihl l
    obtain ⟨m, hm, hm0⟩ := ihr ⟨l.stars + k, l.around⟩
    refine ⟨k + m, ?_, fun _ h => by rw [hk0 (by decide) h, hm0 (by decide) h]⟩
    rw [Tree.yield, afterAll_append, hk, afterAll_cons, after_sign, hm, Nat.add_assoc]
  | whole sum ih => exact (ih l).imp fun k h => ⟨h.1, fun hc => absurd rfl hc⟩
  | starred base exponent ihb ihx =>
    obtain ⟨k, hk, -⟩ := ihb l
    obtain ⟨m, hm, -⟩ := ihx ((⟨l.stars + k, l.around⟩ : OpenLevels).after star)
    refine ⟨k + 1 + m, ?_, fun hc => absurd rfl hc⟩
    rw [Tree.yield, afterAll_append, hk, afterAll_cons, hm]
    simp [after_star, Nat.add_assoc]

theorem depth_afterAll_yield (t : Tree d c) (hc : c ≠ .expression) (l : OpenLevels) :
    (l.afterAll t.yield).depth d = l.depth d := by
  obtain ⟨k, hk, hk0⟩ := afterAll_yield t l
  rw [hk, depth_of_stars (hk0 hc)]

theorem peak_yield (t : Tree d c) (l : OpenLevels) :
    l.peak d t.yield = l.depth d + t.nesting := by
  induction t generalizing l with
  | literal n => exact peak_digits n.isDigit_of_mem_bytes
  | @parens d inner ih =>
    obtain ⟨k, hk, -⟩ := afterAll_yield inner (l.after openParen)
    have hinner := ih (l.after openParen)
    have hlast := depth_afterAll_le_peak (d := d) (l := l.after openParen) inner.yield
    have hclose : ((l.after openParen).afterAll inner.yield).after closeParen = l := by
      rw [hk]
      exact after_closeParen (0 + k)
    rw [depth_openParen] at hinner
    rw [Tree.yield, peak_cons, peak_append, peak_cons, peak, hclose, Tree.nesting]
    omega
  | single operand ih => exact ih l
  | raised base exponent ihb ihx =>
    have hbase := depth_afterAll_yield base (by decide) l
    have hb := ihb l
    have hx := ihx (((l.afterAll base.yield).after star).after star)
    have hstar (l : OpenLevels) : (l.after star).depth .standard = l.depth .standard := rfl
    rw [hstar, hstar] at hx
    rw [Tree.yield, peak_append, peak_cons, peak_cons, hstar, Tree.nesting]
    omega
  | start addend ih => exact ih l
  | @more d left sign right ihl ihr =>
    have hleft := depth_afterAll_yield left (by decide) l
    have hl := ihl l
    have hr := ihr (l.afterAll left.yield)
    rw [Tree.yield, peak_append, peak_cons, after_sign, Tree.nesting]
    omega
  | whole sum ih => exact ih l
  | starred base exponent ihb ihx =>
    have hbase := depth_afterAll_yield base (by decide) l
    have hb := ihb l
    have hx := ihx ((l.afterAll base.yield).after star)
    rw [depth_star] at hx
    rw [Tree.yield, peak_append, peak_cons, Tree.nesting]
    omega

end OpenLevels

theorem Tree.nesting_le_length {d : Dialect} {c : Category} (t : Tree d c) :
    t.nesting ≤ t.yield.length := by
  have hpeak := OpenLevels.peak_yield t .outermost
  have hlength := OpenLevels.peak_le_length (d := d) (l := .outermost) t.yield
  omega

end Reckon
