import Mathlib.Data.List.Basic
import Reckon.Proofs.Syntax.Unambiguous

/-!
# Trees with a hole

A context is a tree in which one operand is missing. In the text of a tree an operand can be found
without a look at the tree, so two texts that differ in one operand have the same context.
-/

namespace Reckon

open Byte Exact

namespace Tree

variable {d : Dialect} {c : Category}

/-- The tree has the value `i`, and everything on the way to it is in range. -/
def Gives (t : Tree d c) (i : Int) : Prop := t.Fits ∧ t.value = some i

theorem gives_raised (base : Tree .standard .operand) (exponent : Tree .standard .addend) (i : Int) :
    (raised base exponent).Gives i ↔
      ∃ b, base.Gives b ∧ ∃ x, exponent.Gives x ∧ power? b x = some i ∧ InRange i :=
  combined_iff.symm

theorem gives_more (left : Tree d .sum) (sign : Sign) (right : Tree d .addend) (i : Int) :
    (more left sign right).Gives i ↔
      ∃ a, left.Gives a ∧ ∃ b, right.Gives b ∧ some (sign.apply a b) = some i ∧ InRange i :=
  (combined_iff (f := fun a b => some (sign.apply a b))).symm

theorem gives_starred (base : Tree .ternary .sum) (exponent : Tree .ternary .expression) (i : Int) :
    (starred base exponent).Gives i ↔
      ∃ b, base.Gives b ∧ ∃ x, exponent.Gives x ∧ power? b x = some i ∧ InRange i :=
  combined_iff.symm

end Tree

/-- A tree with a hole in the place of one operand. -/
inductive Context : Dialect → Category → Type where
  | hole {d : Dialect} : Context d .operand
  | parens {d : Dialect} (inner : Context d .expression) : Context d .operand
  | single {d : Dialect} (operand : Context d .operand) : Context d .addend
  | raisedBase (base : Context .standard .operand) (exponent : Tree .standard .addend) :
    Context .standard .addend
  | raisedExponent (base : Tree .standard .operand) (exponent : Context .standard .addend) :
    Context .standard .addend
  | start {d : Dialect} (addend : Context d .addend) : Context d .sum
  | moreLeft {d : Dialect} (left : Context d .sum) (sign : Sign) (right : Tree d .addend) :
    Context d .sum
  | moreRight {d : Dialect} (left : Tree d .sum) (sign : Sign) (right : Context d .addend) :
    Context d .sum
  | whole {d : Dialect} (sum : Context d .sum) : Context d .expression
  | starredBase (base : Context .ternary .sum) (exponent : Tree .ternary .expression) :
    Context .ternary .expression
  | starredExponent (base : Tree .ternary .sum) (exponent : Context .ternary .expression) :
    Context .ternary .expression

namespace Context

variable {d : Dialect} {c : Category}

/-! ## Filling the hole -/

@[simp]
def fill {d : Dialect} {c : Category} : Context d c → Tree d .operand → Tree d c
  | hole, o => o
  | parens inner, o => .parens (inner.fill o)
  | single operand, o => .single (operand.fill o)
  | raisedBase base exponent, o => .raised (base.fill o) exponent
  | raisedExponent base exponent, o => .raised base (exponent.fill o)
  | start addend, o => .start (addend.fill o)
  | moreLeft left sign right, o => .more (left.fill o) sign right
  | moreRight left sign right, o => .more left sign (right.fill o)
  | whole sum, o => .whole (sum.fill o)
  | starredBase base exponent, o => .starred (base.fill o) exponent
  | starredExponent base exponent, o => .starred base (exponent.fill o)

/-- The text in front of the hole. -/
@[simp]
def before {d : Dialect} {c : Category} : Context d c → List UInt8
  | hole => []
  | parens inner => openParen :: inner.before
  | single operand => operand.before
  | raisedBase base _ => base.before
  | raisedExponent base exponent => base.yield ++ star :: star :: exponent.before
  | start addend => addend.before
  | moreLeft left _ _ => left.before
  | moreRight left sign right => left.yield ++ sign.byte :: right.before
  | whole sum => sum.before
  | starredBase base _ => base.before
  | starredExponent base exponent => base.yield ++ star :: exponent.before

/-- The text behind the hole. -/
@[simp]
def after {d : Dialect} {c : Category} : Context d c → List UInt8
  | hole => []
  | parens inner => inner.after ++ [closeParen]
  | single operand => operand.after
  | raisedBase base exponent => base.after ++ star :: star :: exponent.yield
  | raisedExponent _ exponent => exponent.after
  | start addend => addend.after
  | moreLeft left sign right => left.after ++ sign.byte :: right.yield
  | moreRight _ _ right => right.after
  | whole sum => sum.after
  | starredBase base exponent => base.after ++ star :: exponent.yield
  | starredExponent _ exponent => exponent.after

theorem yield_fill (x : Context d c) (o : Tree d .operand) :
    (x.fill o).yield = x.before ++ o.yield ++ x.after := by
  induction x with
  | hole => simp
  | _ => simp [*]

variable {o o' : Tree d .operand}

/-- Only the value of an operand matters for what is around it. -/
theorem gives_fill (x : Context d c) (h : ∀ i, o.Gives i ↔ o'.Gives i) (i : Int) :
    (x.fill o).Gives i ↔ (x.fill o').Gives i := by
  induction x generalizing i with
  | hole => exact h i
  | parens inner ih => exact ih h i
  | single operand ih => exact ih h i
  | raisedBase base exponent ih => simp only [fill, Tree.gives_raised, ih h]
  | raisedExponent base exponent ih => simp only [fill, Tree.gives_raised, ih h]
  | start addend ih => exact ih h i
  | moreLeft left sign right ih => simp only [fill, Tree.gives_more, ih h]
  | moreRight left sign right ih => simp only [fill, Tree.gives_more, ih h]
  | whole sum ih => exact ih h i
  | starredBase base exponent ih => simp only [fill, Tree.gives_starred, ih h]
  | starredExponent base exponent ih => simp only [fill, Tree.gives_starred, ih h]

/-! ## Finding an operand -/

/-- Behind the hole there is never a digit, because a literal takes all its digits. -/
theorem first_after_append (x : Context d c) {more : List UInt8}
    (hmore : (Symbol.first more).isDigit = false) :
    (Symbol.first (x.after ++ more)).isDigit = false := by
  induction x generalizing more with
  | hole => exact hmore
  | parens inner ih =>
    rw [after, List.append_assoc]
    exact ih rfl
  | single operand ih => exact ih hmore
  | raisedBase base exponent ih =>
    rw [after, List.append_assoc]
    exact ih rfl
  | raisedExponent base exponent ih => exact ih hmore
  | start addend ih => exact ih hmore
  | moreLeft left sign right ih =>
    rw [after, List.append_assoc]
    exact ih (by cases sign <;> rfl)
  | moreRight left sign right ih => exact ih hmore
  | whole sum ih => exact ih hmore
  | starredBase base exponent ih =>
    rw [after, List.append_assoc]
    exact ih rfl
  | starredExponent base exponent ih => exact ih hmore

@[simp]
theorem not_canBegin_closeParen : ¬ Tree.CanBegin closeParen := by decide

@[simp]
theorem not_canBegin_star : ¬ Tree.CanBegin star := by decide

@[simp]
theorem not_canBegin_sign (s : Sign) : ¬ Tree.CanBegin s.byte := by
  cases s <;> decide

variable {front back : List UInt8} {b : UInt8}

/-- What no separator can be stands on the left or on the right of it. -/
theorem split_at_separator {left right : List UInt8} (separator : List UInt8) (hb : Tree.CanBegin b)
    (hseparator : ∀ s ∈ separator, ¬ Tree.CanBegin s)
    (h : left ++ (separator ++ right) = front ++ b :: back) :
    (∃ more, left = front ++ b :: more) ∨
      ∃ front', right = front' ++ b :: back ∧ front = left ++ (separator ++ front') := by
  have hhead {s : UInt8} {tail rest : List UInt8} (h : b :: rest = s :: tail)
      (hs : s ∈ separator) : False := by
    obtain rfl := (List.cons.inj h).1
    exact hseparator b hs hb
  rcases List.append_eq_append_iff.mp h with ⟨tail, hfront, htail⟩ | ⟨more, hleft, hmore⟩
  · rcases List.append_eq_append_iff.mp htail with ⟨front', rfl, h'⟩ | ⟨rest, hrest, h'⟩
    · exact .inr ⟨front', h', hfront⟩
    · cases rest with
      | nil => exact .inr ⟨[], by simpa using h'.symm, by simp [hfront, hrest]⟩
      | cons s rest => exact (hhead h' (by simp [hrest])).elim
  · cases more with
    | cons s more =>
      obtain rfl : b = s := (List.cons.inj hmore).1
      exact .inl ⟨more, hleft⟩
    | nil =>
      cases separator with
      | nil => exact .inr ⟨[], hmore.symm, by simp [hleft]⟩
      | cons s separator => exact (hhead hmore (by simp)).elim

/-- The text in front does not end inside a literal. -/
def NoDigitBefore (front : List UInt8) : Prop := ∀ b ∈ front.getLast?, ¬ IsDigit b

theorem NoDigitBefore.of_append {more : List UInt8} (h : NoDigitBefore (more ++ front)) :
    NoDigitBefore front := fun b hb => h b (List.mem_getLast?_append_of_mem_getLast? hb)

/-- Where an operand can begin one does, and the rest of the tree is a context of it. -/
theorem exists_fill (t : Tree d c) (hb : Tree.CanBegin b) (hfront : NoDigitBefore front)
    (h : t.yield = front ++ b :: back) :
    ∃ (x : Context d c) (o : Tree d .operand), t = x.fill o ∧ x.before = front := by
  induction t generalizing front back with
  | literal n =>
    have hbytes : n.bytes = front ++ b :: back := h
    -- In front of a digit of a literal there is another one, unless it is the first.
    obtain rfl : front = [] := by
      rcases List.eq_nil_or_concat front with hnil | ⟨more, digit, rfl⟩
      · exact hnil
      · have hdigit : IsDigit digit := n.isDigit_of_mem_bytes digit (by simp [hbytes])
        exact absurd hdigit (hfront digit (by simp))
    exact ⟨.hole, _, rfl, rfl⟩
  | parens inner ih =>
    cases front with
    | nil => exact ⟨.hole, _, rfl, rfl⟩
    | cons s front =>
      obtain ⟨rfl, htail⟩ := List.cons.inj h
      have hinner : inner.yield ++ ([closeParen] ++ []) = front ++ b :: back := htail
      rcases split_at_separator [closeParen] hb (by simp) hinner with
        ⟨more, hmore⟩ | ⟨front', hnil, -⟩
      · obtain ⟨x, o, rfl, rfl⟩ := ih (@NoDigitBefore.of_append _ [_] hfront) hmore
        exact ⟨.parens x, o, rfl, rfl⟩
      · simp at hnil
  | single operand ih =>
    obtain ⟨x, o, rfl, rfl⟩ := ih hfront h
    exact ⟨.single x, o, rfl, rfl⟩
  | raised base exponent ihb ihx =>
    rcases split_at_separator [star, star] hb (by simp) h with
      ⟨more, hmore⟩ | ⟨front', hexponent, rfl⟩
    · obtain ⟨x, o, rfl, rfl⟩ := ihb hfront hmore
      exact ⟨.raisedBase x exponent, o, rfl, rfl⟩
    · obtain ⟨x, o, rfl, rfl⟩ := ihx hfront.of_append.of_append hexponent
      exact ⟨.raisedExponent base x, o, rfl, rfl⟩
  | start addend ih =>
    obtain ⟨x, o, rfl, rfl⟩ := ih hfront h
    exact ⟨.start x, o, rfl, rfl⟩
  | more left sign right ihl ihr =>
    rcases split_at_separator [sign.byte] hb (by simp) h with
      ⟨more, hmore⟩ | ⟨front', hright, rfl⟩
    · obtain ⟨x, o, rfl, rfl⟩ := ihl hfront hmore
      exact ⟨.moreLeft x sign right, o, rfl, rfl⟩
    · obtain ⟨x, o, rfl, rfl⟩ := ihr hfront.of_append.of_append hright
      exact ⟨.moreRight left sign x, o, rfl, rfl⟩
  | whole sum ih =>
    obtain ⟨x, o, rfl, rfl⟩ := ih hfront h
    exact ⟨.whole x, o, rfl, rfl⟩
  | starred base exponent ihb ihx =>
    rcases split_at_separator [star] hb (by simp) h with
      ⟨more, hmore⟩ | ⟨front', hexponent, rfl⟩
    · obtain ⟨x, o, rfl, rfl⟩ := ihb hfront hmore
      exact ⟨.starredBase x exponent, o, rfl, rfl⟩
    · obtain ⟨x, o, rfl, rfl⟩ := ihx hfront.of_append.of_append hexponent
      exact ⟨.starredExponent base x, o, rfl, rfl⟩

/-- A tree with the text of an operand in it has that operand there, unless the text is part of
a longer literal. -/
theorem exists_fill_of_yield (t : Tree d c) (o : Tree d .operand) (hfront : NoDigitBefore front)
    (hback : (Symbol.first back).isDigit = false)
    (h : t.yield = front ++ o.yield ++ back) :
    ∃ x : Context d c, t = x.fill o ∧ x.before = front ∧ x.after = back := by
  obtain ⟨b, more, ho, hb⟩ := o.exists_canBegin
  have hopen : t.yield = front ++ b :: (more ++ back) := by
    simp [h, ho]
  obtain ⟨x, u, rfl, rfl⟩ := exists_fill t hb hfront hopen
  have htail : u.yield ++ x.after = o.yield ++ back := by
    simpa [yield_fill] using h
  have hafter : (Symbol.first x.after).isDigit = false := by
    simpa using @first_after_append _ _ x [] rfl
  obtain rfl : u = o := unambiguous_operand (fun m _ => unambiguous_expression d m) u o _ _
    (Nat.le_refl u.nesting) ⟨hafter, trivial⟩ ⟨hback, trivial⟩ htail
  exact ⟨x, rfl, rfl, List.append_cancel_left htail⟩

end Context

end Reckon
