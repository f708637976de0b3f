import Reckon.Proofs.Syntax.Tree

/-!
# Sentences and viable prefixes

A text is viable if some continuation makes a sentence of it. Sizes of values and limits on the
nesting do not matter here.
-/

namespace Reckon

open Byte

variable {d : Dialect} {c : Category}

/-- The whole text is one expression. -/
def Sentence (d : Dialect) (text : List UInt8) : Prop :=
  ∃ t : Tree d .expression, t.yield = text

def Viable (d : Dialect) (text : List UInt8) : Prop := ∃ more, Sentence d (text ++ more)

theorem Sentence.viable {text : List UInt8} (h : Sentence d text) : Viable d text :=
  ⟨[], by simpa using h⟩

theorem Viable.of_append {text more : List UInt8} (h : Viable d (text ++ more)) :
    Viable d text := by
  obtain ⟨rest, h⟩ := h
  exact ⟨more ++ rest, by simpa using h⟩

namespace Tree

def zero (d : Dialect) : (c : Category) → Tree d c
  | .operand => .literal .zero
  | .addend => .single (.literal .zero)
  | .sum => .start (.single (.literal .zero))
  | .expression => .whole (.start (.single (.literal .zero)))

/-- One more operand at the far right of a chain. -/
def extend : Tree .standard .addend → Tree .standard .operand → Tree .standard .addend
  | single base, o => raised base (single o)
  | raised base exponent, o => raised base (exponent.extend o)

theorem yield_extend (t : Tree .standard .addend) (o : Tree .standard .operand) :
    (t.extend o).yield = t.yield ++ [star] ++ [star] ++ o.yield :=
  match t with
  | single base => by simp [extend]
  | raised base exponent => by simp [extend, yield_extend exponent o]

theorem nesting_extend (t : Tree .standard .addend) (o : Tree .standard .operand) :
    (t.extend o).nesting = max t.nesting o.nesting :=
  match t with
  | single base => by simp [extend]
  | raised base exponent => by simp [extend, nesting_extend exponent o, Nat.max_assoc]

end Tree

/-! ## Openings -/

/-- Every tree of the category can follow `before` and be completed to a sentence. -/
structure Opens (d : Dialect) (c : Category) (before : List UInt8) : Prop where
  completes : ∃ after, ∀ t : Tree d c, Sentence d (before ++ t.yield ++ after)
  /-- A literal that follows is not the rest of another one. -/
  last_not_digit : ∀ b ∈ before.getLast?, ¬ IsDigit b

namespace Opens

variable {before : List UInt8}

theorem start (d : Dialect) : Opens d .expression [] where
  completes := ⟨[], fun t => ⟨t, by simp⟩⟩
  last_not_digit := by simp

theorem viable_of_yield_eq (h : Opens d c before) {t : Tree d c} {text more : List UInt8}
    (ht : t.yield = text ++ more) : Viable d (before ++ text) := by
  obtain ⟨after, hafter⟩ := h.completes
  refine ⟨more ++ after, ?_⟩
  simpa [ht] using hafter t

theorem viable_yield (h : Opens d c before) (t : Tree d c) : Viable d (before ++ t.yield) :=
  h.viable_of_yield_eq (t.yield.append_nil).symm

theorem viable (h : Opens d c before) : Viable d before := (h.viable_yield (.zero d c)).of_append

theorem sum (h : Opens d .expression before) : Opens d .sum before where
  completes := by
    obtain ⟨after, hafter⟩ := h.completes
    exact ⟨after, fun t => hafter (.whole t)⟩
  last_not_digit := h.last_not_digit

theorem addend (h : Opens d .sum before) : Opens d .addend before where
  completes := by
    obtain ⟨after, hafter⟩ := h.completes
    exact ⟨after, fun t => hafter (.start t)⟩
  last_not_digit := h.last_not_digit

theorem operand (h : Opens d .addend before) : Opens d .operand before where
  completes := by
    obtain ⟨after, hafter⟩ := h.completes
    exact ⟨after, fun t => hafter (.single t)⟩
  last_not_digit := h.last_not_digit

theorem behind_sign (h : Opens d .sum before) (left : Tree d .sum) (s : Sign) :
    Opens d .addend (before ++ left.yield ++ [s.byte]) where
  completes := by
    obtain ⟨after, hafter⟩ := h.completes
    exact ⟨after, fun t => by simpa using hafter (.more left s t)⟩
  last_not_digit := by
    cases s <;> simp [Sign.byte, IsDigit] <;> decide

theorem behind_stars (h : Opens .standard .addend before) (t : Tree .standard .addend) :
    Opens .standard .operand (before ++ t.yield ++ [star] ++ [star]) where
  completes := by
    obtain ⟨after, hafter⟩ := h.completes
    exact ⟨after, fun o => by simpa [Tree.yield_extend] using hafter (t.extend o)⟩
  last_not_digit := by simp [IsDigit]; decide

theorem behind_star (h : Opens .ternary .expression before) (base : Tree .ternary .sum) :
    Opens .ternary .expression (before ++ base.yield ++ [star]) where
  completes := by
    obtain ⟨after, hafter⟩ := h.completes
    exact ⟨after, fun t => by simpa using hafter (.starred base t)⟩
  last_not_digit := by simp [IsDigit]; decide

theorem behind_openParen (h : Opens d .operand before) :
    Opens d .expression (before ++ [openParen]) where
  completes := by
    obtain ⟨after, hafter⟩ := h.completes
    exact ⟨closeParen :: after, fun t => by simpa using hafter (.parens t)⟩
  last_not_digit := by simp [IsDigit]; decide

end Opens

end Reckon
