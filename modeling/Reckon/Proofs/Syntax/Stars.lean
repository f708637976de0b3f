import Reckon.Proofs.Syntax.Tree

/-!
# Where stars stand

In a standard text stars come in pairs, in a ternary text no star follows another. So a text that
is both has no star at all.
-/

namespace Reckon

open Byte

/-- The stars of a text can be taken away in pairs of neighbours. -/
inductive StarsPaired : List UInt8 → Prop
  | nil : StarsPaired []
  | other {b : UInt8} {text : List UInt8} (hb : b ≠ star) (h : StarsPaired text) :
    StarsPaired (b :: text)
  | pair {text : List UInt8} (h : StarsPaired text) : StarsPaired (star :: star :: text)

/-- Behind every star of a text there is something else. -/
inductive StarsApart : List UInt8 → Prop
  | nil : StarsApart []
  | other {b : UInt8} {text : List UInt8} (hb : b ≠ star) (h : StarsApart text) :
    StarsApart (b :: text)
  | star {b : UInt8} {text : List UInt8} (hb : b ≠ star) (h : StarsApart text) :
    StarsApart (star :: b :: text)

variable {text more : List UInt8}

theorem Byte.IsDigit.ne_star {b : UInt8} (h : IsDigit b) : b ≠ star := by
  rintro rfl
  exact absurd h (by decide)

theorem Sign.byte_ne_star (s : Sign) : s.byte ≠ star := by
  cases s <;> decide

namespace StarsPaired

theorem append (h : StarsPaired text) (hmore : StarsPaired more) : StarsPaired (text ++ more) := by
  induction h with
  | nil => exact hmore
  | other hb _ ih => exact .other hb ih
  | pair _ ih => exact .pair ih

theorem digits (h : ∀ b ∈ text, IsDigit b) : StarsPaired text := by
  induction text with
  | nil => exact .nil
  | cons b text ih =>
    exact .other (h b List.mem_cons_self).ne_star (ih fun b hb => h b (List.mem_cons_of_mem _ hb))

theorem yield {d : Dialect} {c : Category} (t : Tree d c) (hd : d = .standard) :
    StarsPaired t.yield := by
  induction t with
  | literal n => exact digits n.isDigit_of_mem_bytes
  | parens inner ih => exact .other (by decide) ((ih hd).append (.other (by decide) .nil))
  | single operand ih => exact ih hd
  | raised base exponent ihb ihx => exact (ihb hd).append (.pair (ihx hd))
  | start addend ih => exact ih hd
  | more left sign right ihl ihr => exact (ihl hd).append (.other sign.byte_ne_star (ihr hd))
  | whole sum ih => exact ih hd
  | starred base exponent ihb ihx => exact nomatch hd

end StarsPaired

namespace StarsApart

theorem append (h : StarsApart text) (hmore : StarsApart more) : StarsApart (text ++ more) := by
  induction h with
  | nil => exact hmore
  | other hb _ ih => exact .other hb ih
  | star hb _ ih => exact .star hb ih

theorem digits (h : ∀ b ∈ text, IsDigit b) : StarsApart text := by
  induction text with
  | nil => exact .nil
  | cons b text ih =>
    exact .other (h b List.mem_cons_self).ne_star (ih fun b hb => h b (List.mem_cons_of_mem _ hb))

theorem behind_star {d : Dialect} {c : Category} (t : Tree d c) (h : StarsApart t.yield) :
    StarsApart (Byte.star :: t.yield) := by
  obtain ⟨b, more, ht, hb⟩ := t.exists_canBegin
  rw [ht] at h ⊢
  cases h with
  | other hb' hmore => exact .star hb' hmore
  | star => exact absurd hb (by decide)

theorem yield {d : Dialect} {c : Category} (t : Tree d c) (hd : d = .ternary) :
    StarsApart t.yield := by
  induction t with
  | literal n => exact digits n.isDigit_of_mem_bytes
  | parens inner ih => exact .other (by decide) ((ih hd).append (.other (by decide) .nil))
  | single operand ih => exact ih hd
  | raised base exponent ihb ihx => exact nomatch hd
  | start addend ih => exact ih hd
  | more left sign right ihl ihr => exact (ihl hd).append (.other sign.byte_ne_star (ihr hd))
  | whole sum ih => exact ih hd
  | starred base exponent ihb ihx => exact (ihb hd).append (behind_star exponent (ihx hd))

end StarsApart

theorem star_not_mem_of_paired_of_apart (hpaired : StarsPaired text) (hapart : StarsApart text) :
    star ∉ text := by
  induction hpaired with
  | nil => exact List.not_mem_nil
  | other hb _ ih =>
    cases hapart with
    | other _ hmore => exact List.not_mem_cons_of_ne_of_not_mem hb.symm (ih hmore)
    | star => exact absurd rfl hb
  | pair _ ih =>
    cases hapart with
    | other hb => exact absurd rfl hb
    | star hb => exact absurd rfl hb

/-- Only texts without stars are sentences of both dialects. -/
theorem Tree.star_not_mem_of_yield_eq {t : Tree .standard .expression}
    {u : Tree .ternary .expression} (h : t.yield = u.yield) : star ∉ t.yield :=
  star_not_mem_of_paired_of_apart (.yield t rfl) (h ▸ .yield u rfl)

end Reckon
