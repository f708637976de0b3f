import Reckon.Dialect
import Reckon.Proofs.Syntax.Numeral
import Reckon.Proofs.Value.Exact

/-!
# Syntax trees

What the texts of the two dialects mean, with no reader in it. A tree is a derivation in one of
the two grammars below; both share operands and sums.

    standard                                ternary
    expression := sum                       expression := sum | sum '*' expression
    sum        := addend                    sum        := addend
                | sum ('+' | '-') addend                | sum ('+' | '-') addend
    addend     := operand                   addend     := operand
                | operand '**' addend
    operand    := literal                   operand    := literal
                | '(' expression ')'                    | '(' expression ')'
-/

namespace Reckon

open Exact

inductive Sign where
  | plus
  | minus
  deriving DecidableEq, Repr

namespace Sign

def byte : Sign → UInt8
  | plus => Byte.plus
  | minus => Byte.minus

def checked : Sign → Value → Value → Except ArithmeticError Value
  | plus => Value.add
  | minus => Value.sub

def operation : Sign → Operation
  | plus => .addition
  | minus => .subtraction

def apply : Sign → Int → Int → Int
  | plus, a, b => a + b
  | minus, a, b => a - b

theorem checked_exact (s : Sign) (a b : Value) :
    (s.checked a b).map Int64.toInt = fit s.operation (s.apply a.toInt b.toInt) := by
  cases s
  · exact Value.add_exact a b
  · exact Value.sub_exact a b

end Sign

inductive Category where
  | operand
  | addend
  | sum
  | expression
  deriving DecidableEq, Repr

namespace Category

/-- `s` does not go on with a chain, a sum or an expression that could end in front of it. -/
def Closes (d : Dialect) : Category → Symbol → Prop
  | operand, _ => True
  | addend, s => d = .standard → s ≠ .star
  | sum, s => (d = .standard → s ≠ .star) ∧ s ≠ .plus ∧ s ≠ .minus
  | expression, s => s ≠ .star ∧ s ≠ .plus ∧ s ≠ .minus

/-- What may stand behind the text of a tree, if the text is to end there. A digit would make a
literal longer. -/
def EndsAt (d : Dialect) (c : Category) (s : Symbol) : Prop := s.isDigit = false ∧ c.Closes d s

theorem endsAt_closeParen {d : Dialect} : expression.EndsAt d .closeParen := by
  simp only [EndsAt, Closes]
  decide

theorem endsAt_terminator {d : Dialect} {s : Symbol} (h : s.isTerminator = true) :
    expression.EndsAt d s := by
  simp only [Symbol.isTerminator, Bool.or_eq_true, decide_eq_true_eq] at h
  simp only [EndsAt, Closes]
  rcases h with rfl | rfl <;> decide

theorem endsAt_sign {d : Dialect} (s : Sign) : addend.EndsAt d (.byte s.byte) := by
  simp only [EndsAt, Closes]
  cases s <;> cases d <;> decide

theorem endsAt_star : addend.EndsAt .ternary .star := by
  simp only [EndsAt, Closes]
  decide

end Category

inductive Tree : Dialect → Category → Type where
  | literal {d : Dialect} (n : Numeral) : Tree d .operand
  | parens {d : Dialect} (inner : Tree d .expression) : Tree d .operand
  | single {d : Dialect} (operand : Tree d .operand) : Tree d .addend
  /-- `base '**' exponent`, grouped to the right. -/
  | raised (base : Tree .standard .operand) (exponent : Tree .standard .addend) :
    Tree .standard .addend
  | start {d : Dialect} (addend : Tree d .addend) : Tree d .sum
  /-- `left sign right`, grouped to the left. -/
  | more {d : Dialect} (left : Tree d .sum) (sign : Sign) (right : Tree d .addend) : Tree d .sum
  | whole {d : Dialect} (sum : Tree d .sum) : Tree d .expression
  /-- `base '*' exponent`: the exponent is the whole rest of the level. -/
  | starred (base : Tree .ternary .sum) (exponent : Tree .ternary .expression) :
    Tree .ternary .expression

namespace Tree

variable {d : Dialect} {c : Category}

/-! ## Texts -/

@[simp]
def yield {d : Dialect} {c : Category} : Tree d c → List UInt8
  | literal n => n.bytes
  | parens inner => Byte.openParen :: (inner.yield ++ [Byte.closeParen])
  | single operand => operand.yield
  | raised base exponent => base.yield ++ Byte.star :: Byte.star :: exponent.yield
  | start addend => addend.yield
  | more left sign right => left.yield ++ sign.byte :: right.yield
  | whole sum => sum.yield
  | starred base exponent => base.yield ++ Byte.star :: exponent.yield

/-- A tree can begin with this byte. -/
def CanBegin (b : UInt8) : Prop := b = Byte.openParen ∨ Byte.IsDigit b

instance (b : UInt8) : Decidable (CanBegin b) := inferInstanceAs (Decidable (_ ∨ _))

theorem exists_canBegin (t : Tree d c) : ∃ b more, t.yield = b :: more ∧ CanBegin b := by
  have happend {front : List UInt8} (h : ∃ b more, front = b :: more ∧ CanBegin b)
      (back : List UInt8) : ∃ b more, front ++ back = b :: more ∧ CanBegin b := by
    obtain ⟨b, more, rfl, hb⟩ := h
    exact ⟨b, more ++ back, rfl, hb⟩
  induction t with
  | literal n =>
    obtain ⟨b, more, hn⟩ := List.exists_cons_of_ne_nil n.bytes_ne_nil
    exact ⟨b, more, hn, .inr (n.isDigit_of_mem_bytes b (by simp [hn]))⟩
  | parens inner ih => exact ⟨_, _, rfl, .inl rfl⟩
  | single operand ih => exact ih
  | raised base exponent ihb ihx => exact happend ihb _
  | start addend ih => exact ih
  | more left sign right ihl ihr => exact happend ihl _
  | whole sum ih => exact ih
  | starred base exponent ihb ihx => exact happend ihb _

/-- How deep the tree nests: one level for each pair of parentheses, and one for each exponent
behind a single star. -/
@[simp]
def nesting {d : Dialect} {c : Category} : Tree d c → Nat
  | literal _ => 0
  | parens inner => inner.nesting + 1
  | single operand => operand.nesting
  | raised base exponent => max base.nesting exponent.nesting
  | start addend => addend.nesting
  | more left _ right => max left.nesting right.nesting
  | whole sum => sum.nesting
  | starred base exponent => max base.nesting (exponent.nesting + 1)

/-! ## Values -/

/-- The value over the unbounded integers, if all its powers are integers. -/
def value {d : Dialect} {c : Category} : Tree d c → Option Int
  | literal n => some n.value
  | parens inner => inner.value
  | single operand => operand.value
  | raised base exponent => do power? (← base.value) (← exponent.value)
  | start addend => addend.value
  | more left sign right => do return sign.apply (← left.value) (← right.value)
  | whole sum => sum.value
  | starred base exponent => do power? (← base.value) (← exponent.value)

/-- Every literal, every partial sum and every partial power is in range. -/
def Fits {d : Dialect} {c : Category} : Tree d c → Prop
  | literal n => InRange n.value
  | parens inner => inner.Fits
  | single operand => operand.Fits
  | raised base exponent =>
    base.Fits ∧ exponent.Fits ∧ ∀ i ∈ (raised base exponent).value, InRange i
  | start addend => addend.Fits
  | more left sign right =>
    left.Fits ∧ right.Fits ∧ ∀ i ∈ (more left sign right).value, InRange i
  | whole sum => sum.Fits
  | starred base exponent =>
    base.Fits ∧ exponent.Fits ∧ ∀ i ∈ (starred base exponent).value, InRange i

/-! ## Evaluation -/

def located (place : Position) : Except ArithmeticError Int → Except Failure Int
  | .ok i => .ok i
  | .error cause => .error (.arithmetic cause place)

/-- Evaluates a tree whose text begins in this column. An operation comes after its left and its
right operand, and the first that fails is the result. Before it enters a level it asks `guard`,
with the depth so far and the column that the level begins in. -/
def walk (guard : Nat → Nat → Except Failure Unit) {d : Dialect} {c : Category} :
    Tree d c → (depth column : Nat) → Except Failure Int
  | literal n, _, column => located ⟨0, column⟩ (fit .literal n.value)
  | parens inner, depth, column => do
    guard depth (column + 1)
    inner.walk guard (depth + 1) (column + 1)
  | single operand, depth, column => operand.walk guard depth column
  | raised base exponent, depth, column => do
    let place := column + base.yield.length
    let b ← base.walk guard depth column
    let x ← exponent.walk guard depth (place + 2)
    located ⟨0, place⟩ (raise b x)
  | start addend, depth, column => addend.walk guard depth column
  | more left sign right, depth, column => do
    let place := column + left.yield.length
    let a ← left.walk guard depth column
    let b ← right.walk guard depth (place + 1)
    located ⟨0, place⟩ (fit sign.operation (sign.apply a b))
  | whole sum, depth, column => sum.walk guard depth column
  | starred base exponent, depth, column => do
    let place := column + base.yield.length
    let b ← base.walk guard depth column
    guard depth (place + 1)
    let x ← exponent.walk guard (depth + 1) (place + 1)
    located ⟨0, place⟩ (raise b x)

section

/-! Proofs take a step of an evaluation with these equations and do not unfold `walk`. -/

variable (guard : Nat → Nat → Except Failure Unit) (depth column : Nat)

theorem walk_literal (n : Numeral) :
    (literal n : Tree d .operand).walk guard depth column =
      located ⟨0, column⟩ (fit .literal n.value) := rfl

theorem walk_parens (inner : Tree d .expression) :
    (parens inner).walk guard depth column =
      (do
        guard depth (column + 1)
        inner.walk guard (depth + 1) (column + 1)) := rfl

theorem walk_raised (base : Tree .standard .operand) (exponent : Tree .standard .addend) :
    (raised base exponent).walk guard depth column =
      (do
        let b ← base.walk guard depth column
        let x ← exponent.walk guard depth (column + base.yield.length + 2)
        located ⟨0, column + base.yield.length⟩ (raise b x)) := rfl

theorem walk_more (left : Tree d .sum) (sign : Sign) (right : Tree d .addend) :
    (more left sign right).walk guard depth column =
      (do
        let a ← left.walk guard depth column
        let b ← right.walk guard depth (column + left.yield.length + 1)
        located ⟨0, column + left.yield.length⟩ (fit sign.operation (sign.apply a b))) := rfl

theorem walk_whole (sum : Tree d .sum) :
    (whole sum).walk guard depth column = sum.walk guard depth column := rfl

theorem walk_starred (base : Tree .ternary .sum) (exponent : Tree .ternary .expression) :
    (starred base exponent).walk guard depth column =
      (do
        let b ← base.walk guard depth column
        guard depth (column + base.yield.length + 1)
        let x ← exponent.walk guard (depth + 1) (column + base.yield.length + 1)
        located ⟨0, column + base.yield.length⟩ (raise b x)) := rfl

end

def evaluate (t : Tree d c) (column : Nat) : Except Failure Int :=
  t.walk (fun _ _ => .ok ()) 0 column

def limited (limit depth column : Nat) : Except Failure Unit :=
  if limit ≤ depth then .error (.tooDeep limit ⟨0, column⟩) else .ok ()

/-! ## What an evaluation gives -/

theorem located_eq_ok_iff (place : Position) (x : Except ArithmeticError Int) (i : Int) :
    located place x = .ok i ↔ x = .ok i := by
  cases x <;> simp [located]

theorem bind_eq_ok_iff {ε α β : Type} (x : Except ε α) (f : α → Except ε β) (b : β) :
    (x >>= f) = .ok b ↔ ∃ a, x = .ok a ∧ f a = .ok b := by
  cases x <;> simp [bind, Except.bind]

theorem bind_eq_error_iff {ε α β : Type} (x : Except ε α) (f : α → Except ε β) (e : ε) :
    (x >>= f) = .error e ↔ x = .error e ∨ ∃ a, x = .ok a ∧ f a = .error e := by
  cases x <;> simp [bind, Except.bind]

/-- An operation succeeds if its operands do and its own result is in range. -/
theorem combined_iff {p q : Prop} {x y : Option Int} {f : Int → Int → Option Int} {i : Int} :
    (∃ a, (p ∧ x = some a) ∧ ∃ b, (q ∧ y = some b) ∧ f a b = some i ∧ InRange i) ↔
      (p ∧ q ∧ ∀ j ∈ x.bind fun a => y.bind fun b => f a b, InRange j) ∧
        (x.bind fun a => y.bind fun b => f a b) = some i := by
  constructor
  · rintro ⟨a, ⟨hp, rfl⟩, b, ⟨hq, rfl⟩, hf, hi⟩
    rw [Option.bind_some, Option.bind_some, hf]
    refine ⟨⟨hp, hq, ?_⟩, rfl⟩
    rintro j ⟨⟩
    exact hi
  · rintro ⟨⟨hp, hq, hall⟩, hi⟩
    obtain ⟨a, rfl, ha⟩ := Option.bind_eq_some_iff.mp hi
    obtain ⟨b, rfl, hb⟩ := Option.bind_eq_some_iff.mp ha
    exact ⟨a, ⟨hp, rfl⟩, b, ⟨hq, rfl⟩, hb, hall i hi⟩

theorem walk_free_eq_ok_iff (t : Tree d c) (depth column : Nat) (i : Int) :
    t.walk (fun _ _ => .ok ()) depth column = .ok i ↔ t.Fits ∧ t.value = some i := by
  induction t generalizing depth column i with
  | literal n =>
    simp only [walk_literal, located_eq_ok_iff, fit_eq_ok_iff, Fits, value, Option.some.injEq]
    constructor
    · rintro ⟨rfl, h⟩; exact ⟨h, rfl⟩
    · rintro ⟨h, rfl⟩; exact ⟨rfl, h⟩
  | parens inner ih => exact ih _ _ _
  | single operand ih => exact ih _ _ _
  | raised base exponent ihb ihx =>
    simp only [walk_raised, bind_eq_ok_iff, ihb, ihx, located_eq_ok_iff, raise_eq_ok_iff]
    exact combined_iff
  | start addend ih => exact ih _ _ _
  | more left sign right ihl ihr =>
    simp only [walk_more, bind_eq_ok_iff, ihl, ihr, located_eq_ok_iff, fit_eq_ok_iff]
    have h := combined_iff (p := left.Fits) (q := right.Fits) (x := left.value)
      (y := right.value) (f := fun a b => some (sign.apply a b)) (i := i)
    simp only [Option.some.injEq] at h
    exact h
  | whole sum ih => exact ih _ _ _
  | starred base exponent ihb ihx =>
    simp only [walk_starred, bind_eq_ok_iff, ihb, ihx, located_eq_ok_iff, raise_eq_ok_iff]
    simp only [exists_const, true_and]
    exact combined_iff

theorem evaluate_eq_ok_iff (t : Tree d c) (column : Nat) (i : Int) :
    t.evaluate column = .ok i ↔ t.Fits ∧ t.value = some i :=
  walk_free_eq_ok_iff t 0 column i

/-- The value of a tree that fits is in range. So nothing is lost if a value that serves as an
exponent is reported as one. -/
theorem inRange_of_fits (t : Tree d c) {i : Int} (h : t.Fits) (hi : t.value = some i) :
    InRange i := by
  induction t generalizing i with
  | literal n =>
    obtain rfl : (n.value : Int) = i := Option.some.inj hi
    exact h
  | parens inner ih => exact ih h hi
  | single operand ih => exact ih h hi
  | raised base exponent ihb ihx => exact h.2.2 i hi
  | start addend ih => exact ih h hi
  | more left sign right ihl ihr => exact h.2.2 i hi
  | whole sum ih => exact ih h hi
  | starred base exponent ihb ihx => exact h.2.2 i hi

/-! ## Limits -/

/-- A limit that the tree stays within cannot be told from no limit. -/
theorem walk_limited_eq_free (t : Tree d c) (limit depth depth' column : Nat)
    (h : depth + t.nesting ≤ limit) :
    t.walk (limited limit) depth column = t.walk (fun _ _ => .ok ()) depth' column := by
  induction t generalizing depth depth' column with
  | literal n => rfl
  | parens inner ih =>
    rw [nesting] at h
    rw [walk_parens, walk_parens, limited, if_neg (by omega)]
    exact ih _ _ _ (by omega)
  | single operand ih => exact ih _ _ _ h
  | raised base exponent ihb ihx =>
    rw [nesting] at h
    have hb (column : Nat) := ihb depth depth' column (by omega)
    have hx (column : Nat) := ihx depth depth' column (by omega)
    simp only [walk_raised, hb, hx]
  | start addend ih => exact ih _ _ _ h
  | more left sign right ihl ihr =>
    rw [nesting] at h
    have hl (column : Nat) := ihl depth depth' column (by omega)
    have hr (column : Nat) := ihr depth depth' column (by omega)
    simp only [walk_more, hl, hr]
  | whole sum ih => exact ih _ _ _ h
  | starred base exponent ihb ihx =>
    rw [nesting] at h
    have hdeeper : ¬ limit ≤ depth := by omega
    have hb (column : Nat) := ihb depth depth' column (by omega)
    have hx (column : Nat) := ihx (depth + 1) (depth' + 1) column (by omega)
    simp only [walk_starred, limited, if_neg hdeeper, hb, hx]

theorem walk_limited_ne_refused (t : Tree d c) (limit depth column : Nat) (refusal : Refusal) :
    t.walk (limited limit) depth column ≠ .error (.refused refusal) := by
  have hlocated (place : Position) (x : Except ArithmeticError Int) :
      located place x ≠ .error (.refused refusal) := by
    cases x <;> simp [located]
  have hlimited (depth column : Nat) : limited limit depth column ≠ .error (.refused refusal) := by
    unfold limited
    split <;> simp
  induction t generalizing depth column with
  | literal n => exact hlocated _ _
  | parens inner ih => simp [walk_parens, bind_eq_error_iff, ih, hlimited]
  | single operand ih => exact ih _ _
  | raised base exponent ihb ihx => simp [walk_raised, bind_eq_error_iff, ihb, ihx, hlocated]
  | start addend ih => exact ih _ _
  | more left sign right ihl ihr => simp [walk_more, bind_eq_error_iff, ihl, ihr, hlocated]
  | whole sum ih => exact ih _ _
  | starred base exponent ihb ihx =>
    simp [walk_starred, bind_eq_error_iff, ihb, ihx, hlocated, hlimited]

end Tree

end Reckon
