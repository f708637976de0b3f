import Reckon.Proofs.Syntax.Levels

/-!
# From the standard dialect to the ternary one

A chain of powers can be said with single stars if it is put in parentheses. They keep a star from
taking more than the chain on either side.
-/

namespace Reckon

open Exact

/-- The same value, or the same arithmetic failure, maybe in another place. -/
inductive SameButPlace {α : Type} : Except Failure α → Except Failure α → Prop
  | value (a : α) : SameButPlace (.ok a) (.ok a)
  | failure (cause : ArithmeticError) (place place' : Position) :
    SameButPlace (.error (.arithmetic cause place)) (.error (.arithmetic cause place'))

namespace SameButPlace

variable {α β : Type}

/-- What comes first fails first on both sides. -/
theorem bind {x y : Except Failure α} {f g : α → Except Failure β} (h : SameButPlace x y)
    (hf : ∀ a, SameButPlace (f a) (g a)) : SameButPlace (x >>= f) (y >>= g) := by
  cases h with
  | value a => exact hf a
  | failure cause place place' => exact .failure cause place place'

theorem located (x : Except ArithmeticError Int) (place place' : Position) :
    SameButPlace (Tree.located place x) (Tree.located place' x) := by
  cases x with
  | ok i => exact .value i
  | error cause => exact .failure cause place place'

theorem of_map {f : α → β} (hf : ∀ a b, f a = f b → a = b) {x y : Except Failure α}
    (h : SameButPlace (x.map f) (y.map f)) : SameButPlace x y := by
  rcases x with e | a <;> rcases y with e' | b
  · simp only [Except.map] at h
    cases h with
    | failure cause place place' => exact .failure cause place place'
  · exact nomatch h
  · exact nomatch h
  · simp only [Except.map] at h
    generalize hb : f b = c at h
    cases h
    rw [hf a b hb.symm]
    exact .value b

end SameButPlace

namespace Tree

mutual

/-- The same expression in the ternary dialect: every chain of powers is put in parentheses and
written with single stars, and nothing else changes. -/
def toTernary {c : Category} : Tree .standard c → Tree .ternary c
  | literal n => literal n
  | parens inner => parens inner.toTernary
  | single operand => single operand.toTernary
  | raised base exponent =>
    single (parens (starred (start (single base.toTernary)) exponent.starChain))
  | start addend => start addend.toTernary
  | more left sign right => more left.toTernary sign right.toTernary
  | whole sum => whole sum.toTernary
termination_by t => sizeOf t

/-- A chain with single stars, and without the parentheses around it. -/
def starChain : Tree .standard .addend → Tree .ternary .expression
  | single operand => whole (start (single operand.toTernary))
  | raised base exponent => starred (start (single base.toTernary)) exponent.starChain
termination_by t => sizeOf t

end

theorem walk_starred_chain {base : Tree .standard .operand} {exponent : Tree .standard .addend}
    {base' : Tree .ternary .operand} {exponent' : Tree .ternary .expression}
    (hbase : ∀ depth column depth' column', SameButPlace
      (base.walk (fun _ _ => .ok ()) depth column) (base'.walk (fun _ _ => .ok ()) depth' column'))
    (hexponent : ∀ depth column depth' column', SameButPlace
      (exponent.walk (fun _ _ => .ok ()) depth column)
      (exponent'.walk (fun _ _ => .ok ()) depth' column'))
    (depth column depth' column' : Nat) : SameButPlace
      ((raised base exponent).walk (fun _ _ => .ok ()) depth column)
      ((starred (start (single base')) exponent').walk (fun _ _ => .ok ()) depth' column') := by
  rw [walk_raised, walk_starred]
  refine (hbase _ _ _ _).bind fun b => ?_
  refine (hexponent _ _ _ _).bind fun x => ?_
  exact .located _ _ _

mutual

/-- The operations of a tree and of its translation come in the same order. -/
theorem walk_toTernary {c : Category} : ∀ (t : Tree .standard c)
    (depth column depth' column' : Nat),
    SameButPlace (t.walk (fun _ _ => .ok ()) depth column)
      (t.toTernary.walk (fun _ _ => .ok ()) depth' column')
  | literal n, _, _, _, _ => by
    rw [toTernary]
    exact .located _ _ _
  | parens inner, _, _, _, _ => by
    rw [toTernary]
    exact walk_toTernary inner _ _ _ _
  | single operand, _, _, _, _ => by
    rw [toTernary]
    exact walk_toTernary operand _ _ _ _
  | raised base exponent, _, _, _, _ => by
    rw [toTernary]
    exact walk_starred_chain (walk_toTernary base) (walk_starChain exponent) _ _ _ _
  | start addend, _, _, _, _ => by
    rw [toTernary]
    exact walk_toTernary addend _ _ _ _
  | more left sign right, _, _, _, _ => by
    rw [toTernary, walk_more, walk_more]
    refine (walk_toTernary left _ _ _ _).bind fun a => ?_
    refine (walk_toTernary right _ _ _ _).bind fun b => ?_
    exact .located _ _ _
  | whole sum, _, _, _, _ => by
    rw [toTernary]
    exact walk_toTernary sum _ _ _ _
termination_by t => sizeOf t

theorem walk_starChain : ∀ (t : Tree .standard .addend) (depth column depth' column' : Nat),
    SameButPlace (t.walk (fun _ _ => .ok ()) depth column)
      (t.starChain.walk (fun _ _ => .ok ()) depth' column')
  | single operand, _, _, _, _ => by
    rw [starChain]
    exact walk_toTernary operand _ _ _ _
  | raised base exponent, _, _, _, _ => by
    rw [starChain]
    exact walk_starred_chain (walk_toTernary base) (walk_starChain exponent) _ _ _ _
termination_by t => sizeOf t

end

end Tree

end Reckon
