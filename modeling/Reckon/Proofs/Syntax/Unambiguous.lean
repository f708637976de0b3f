import Reckon.Proofs.Syntax.Tree

/-!
# A text has one tree

Two trees with the same text are the same, also if something that may follow them is added to
the texts. A sum is taken apart from its left end here, although its tree hangs from the right.
-/

namespace Reckon

variable {d : Dialect} {c : Category} {n : Nat}

/-- Trees that nest no deeper than `n` can be told from all others by their texts. -/
def Unambiguous (d : Dialect) (c : Category) (n : Nat) : Prop :=
  ∀ (t u : Tree d c) (rest rest' : List UInt8), t.nesting ≤ n → c.EndsAt d (.first rest) →
    c.EndsAt d (.first rest') → t.yield ++ rest = u.yield ++ rest' → t = u

theorem ne_cons_of_first_ne {rest more : List UInt8} {b : UInt8}
    (h : Symbol.first rest ≠ .byte b) : rest ≠ b :: more := by
  rintro rfl
  exact h rfl

/-! ## Operands -/

theorem unambiguous_operand (hinner : ∀ m < n, Unambiguous d .expression m) :
    Unambiguous d .operand n := by
  have hfirst (i : Numeral) (rest : List UInt8) : ∃ b more, i.bytes ++ rest = b :: more ∧
      b ≠ Byte.openParen := by
    obtain ⟨b, more, hi⟩ := List.exists_cons_of_ne_nil i.bytes_ne_nil
    refine ⟨b, more ++ rest, by simp [hi], ?_⟩
    rintro rfl
    exact absurd (i.isDigit_of_mem_bytes Byte.openParen (by simp [hi])) (by decide)
  intro t u rest rest' hn hrest hrest' h
  cases t with
  | literal i =>
    obtain ⟨b, more, hi, hb⟩ := hfirst i rest
    cases u with
    | literal j =>
      have hbytes := congrArg (List.takeWhile fun b => decide (Byte.IsDigit b)) h
      simp only [Tree.yield] at hbytes
      rw [Numeral.takeWhile_digits i.isDigit_of_mem_bytes hrest.1,
        Numeral.takeWhile_digits j.isDigit_of_mem_bytes hrest'.1] at hbytes
      rw [Numeral.bytes_injective hbytes]
    | parens e =>
      rw [Tree.yield, hi, Tree.yield, List.cons_append, List.cons.injEq] at h
      exact absurd h.1 hb
  | parens e =>
    cases u with
    | literal j =>
      obtain ⟨b, more, hj, hb⟩ := hfirst j rest'
      rw [Tree.yield, Tree.yield, hj, List.cons_append, List.cons.injEq] at h
      exact absurd h.1.symm hb
    | parens f =>
      have htail : e.yield ++ Byte.closeParen :: rest = f.yield ++ Byte.closeParen :: rest' := by
        simpa using h
      rw [Tree.nesting] at hn
      rw [hinner e.nesting (by omega) e f _ _ (Nat.le_refl _) Category.endsAt_closeParen
        Category.endsAt_closeParen htail]

/-! ## Chains -/

theorem eq_of_chain (hoperand : Unambiguous .standard .operand n)
    (t u : Tree .standard .addend) {rest rest' : List UInt8} (hn : t.nesting ≤ n)
    (hrest : Category.addend.EndsAt .standard (.first rest))
    (hrest' : Category.addend.EndsAt .standard (.first rest'))
    (h : t.yield ++ rest = u.yield ++ rest') : t = u :=
  match t, u with
  | .single o, .single o' => by
    rw [hoperand o o' rest rest' hn ⟨hrest.1, trivial⟩ ⟨hrest'.1, trivial⟩ h]
  | .single o, .raised base exponent => by
    have h : o.yield ++ rest =
        base.yield ++ Byte.star :: Byte.star :: (exponent.yield ++ rest') := by
      simpa using h
    obtain rfl := hoperand o base rest _ hn ⟨hrest.1, trivial⟩ ⟨rfl, trivial⟩ h
    exact absurd (List.append_cancel_left h) (ne_cons_of_first_ne (hrest.2 rfl))
  | .raised base exponent, .single o => by
    have h : base.yield ++ Byte.star :: Byte.star :: (exponent.yield ++ rest) =
        o.yield ++ rest' := by
      simpa using h
    rw [Tree.nesting] at hn
    obtain rfl := hoperand base o _ rest' (by omega) ⟨rfl, trivial⟩ ⟨hrest'.1, trivial⟩ h
    exact absurd (List.append_cancel_left h).symm (ne_cons_of_first_ne (hrest'.2 rfl))
  | .raised base exponent, .raised base' exponent' => by
    have h : base.yield ++ Byte.star :: Byte.star :: (exponent.yield ++ rest) =
        base'.yield ++ Byte.star :: Byte.star :: (exponent'.yield ++ rest') := by
      simpa using h
    rw [Tree.nesting] at hn
    obtain rfl := hoperand base base' _ _ (by omega) ⟨rfl, trivial⟩ ⟨rfl, trivial⟩ h
    have htail : exponent.yield ++ rest = exponent'.yield ++ rest' := by
      simpa using List.append_cancel_left h
    rw [eq_of_chain hoperand exponent exponent' (by omega) hrest hrest' htail]

theorem unambiguous_addend (hoperand : Unambiguous d .operand n) : Unambiguous d .addend n := by
  intro t u rest rest' hn hrest hrest' h
  cases d with
  | standard => exact eq_of_chain hoperand t u hn hrest hrest' h
  | ternary =>
    cases t with | single o
    cases u with | single o'
    rw [hoperand o o' rest rest' hn ⟨hrest.1, trivial⟩ ⟨hrest'.1, trivial⟩ h]

/-! ## Sums -/

namespace Tree

/-- Further addends at the right end of a sum. -/
def moreAll (t : Tree d .sum) (tail : List (Sign × Tree d .addend)) : Tree d .sum :=
  tail.foldl (fun left (s, a) => more left s a) t

/-- The text behind the first addend of a sum. -/
def tailYield (tail : List (Sign × Tree d .addend)) : List UInt8 :=
  tail.flatMap fun (s, a) => s.byte :: a.yield

theorem yield_moreAll (t : Tree d .sum) (tail : List (Sign × Tree d .addend)) :
    (t.moreAll tail).yield = t.yield ++ tailYield tail := by
  induction tail generalizing t with
  | nil => simp [moreAll, tailYield]
  | cons x tail ih =>
    rw [moreAll, List.foldl_cons, ← moreAll, ih]
    simp [tailYield]

theorem nesting_moreAll_le (t : Tree d .sum) (tail : List (Sign × Tree d .addend)) :
    (t.moreAll tail).nesting ≤ n ↔ t.nesting ≤ n ∧ ∀ x ∈ tail, x.2.nesting ≤ n := by
  induction tail generalizing t with
  | nil => simp [moreAll]
  | cons x tail ih =>
    rw [moreAll, List.foldl_cons, ← moreAll, ih]
    simp [and_assoc]

theorem exists_moreAll (t : Tree d .sum) : ∃ a tail, t = moreAll (start a) tail :=
  match t with
  | start a => ⟨a, [], rfl⟩
  | more left s a => by
    obtain ⟨first, tail, rfl⟩ := exists_moreAll left
    exact ⟨first, tail ++ [(s, a)], by simp [moreAll, List.foldl_append]⟩

end Tree

theorem endsAt_tailYield {tail : List (Sign × Tree d .addend)} {rest : List UInt8}
    (hrest : Category.sum.EndsAt d (.first rest)) :
    Category.addend.EndsAt d (.first (Tree.tailYield tail ++ rest)) := by
  cases tail with
  | nil => exact ⟨hrest.1, hrest.2.1⟩
  | cons x tail => exact Category.endsAt_sign x.1

theorem tail_unambiguous (haddend : Unambiguous d .addend n)
    (l l' : List (Sign × Tree d .addend)) {rest rest' : List UInt8}
    (hn : ∀ x ∈ l, x.2.nesting ≤ n) (hrest : Category.sum.EndsAt d (.first rest))
    (hrest' : Category.sum.EndsAt d (.first rest'))
    (h : Tree.tailYield l ++ rest = Tree.tailYield l' ++ rest') : l = l' := by
  have hsign {s : Sign} {rest more : List UInt8} (hrest : Category.sum.EndsAt d (.first rest)) :
      rest ≠ s.byte :: more := by
    cases s
    · exact ne_cons_of_first_ne hrest.2.2.1
    · exact ne_cons_of_first_ne hrest.2.2.2
  induction l generalizing l' with
  | nil =>
    cases l' with
    | nil => rfl
    | cons x l' => exact absurd h (hsign hrest)
  | cons x l ih =>
    cases l' with
    | nil => exact absurd h.symm (hsign hrest')
    | cons x' l' =>
      obtain ⟨s, a⟩ := x
      obtain ⟨s', a'⟩ := x'
      have h : s.byte :: (a.yield ++ (Tree.tailYield l ++ rest)) =
          s'.byte :: (a'.yield ++ (Tree.tailYield l' ++ rest')) := by
        simpa [Tree.tailYield] using h
      obtain ⟨hs, htail⟩ := List.cons.inj h
      obtain rfl : s = s' := by revert hs; cases s <;> cases s' <;> decide
      obtain rfl := haddend a a' _ _ (hn _ List.mem_cons_self) (endsAt_tailYield hrest)
        (endsAt_tailYield hrest') htail
      rw [ih l' (fun x hx => hn x (List.mem_cons_of_mem _ hx)) (List.append_cancel_left htail)]

theorem unambiguous_sum (haddend : Unambiguous d .addend n) : Unambiguous d .sum n := by
  intro t u rest rest' hn hrest hrest' h
  obtain ⟨a, l, rfl⟩ := t.exists_moreAll
  obtain ⟨a', l', rfl⟩ := u.exists_moreAll
  rw [Tree.nesting_moreAll_le, Tree.nesting] at hn
  rw [Tree.yield_moreAll, Tree.yield_moreAll, List.append_assoc, List.append_assoc] at h
  obtain rfl := haddend a a' _ _ hn.1 (endsAt_tailYield hrest) (endsAt_tailYield hrest') h
  rw [tail_unambiguous haddend l l' hn.2 hrest hrest' (List.append_cancel_left h)]

/-! ## Expressions -/

theorem endsAt_sum {rest : List UInt8} (hrest : Category.expression.EndsAt d (.first rest)) :
    Category.sum.EndsAt d (.first rest) := ⟨hrest.1, fun _ => hrest.2.1, hrest.2.2⟩

theorem endsAt_star_sum (more : List UInt8) :
    Category.sum.EndsAt .ternary (.first (Byte.star :: more)) := by
  rw [Symbol.first_cons]
  simp only [Category.EndsAt, Category.Closes]
  decide

theorem eq_of_expression (hsum : Unambiguous .ternary .sum n) (t u : Tree .ternary .expression)
    {rest rest' : List UInt8} (hn : t.nesting ≤ n)
    (hrest : Category.expression.EndsAt .ternary (.first rest))
    (hrest' : Category.expression.EndsAt .ternary (.first rest'))
    (h : t.yield ++ rest = u.yield ++ rest') : t = u :=
  match t, u with
  | .whole s, .whole s' => by rw [hsum s s' rest rest' hn (endsAt_sum hrest) (endsAt_sum hrest') h]
  | .whole s, .starred base exponent => by
    have h : s.yield ++ rest = base.yield ++ Byte.star :: (exponent.yield ++ rest') := by
      simpa using h
    obtain rfl := hsum s base rest _ hn (endsAt_sum hrest) (endsAt_star_sum _) h
    exact absurd (List.append_cancel_left h) (ne_cons_of_first_ne hrest.2.1)
  | .starred base exponent, .whole s => by
    have h : base.yield ++ Byte.star :: (exponent.yield ++ rest) = s.yield ++ rest' := by
      simpa using h
    rw [Tree.nesting] at hn
    obtain rfl := hsum base s _ rest' (by omega) (endsAt_star_sum _) (endsAt_sum hrest') h
    exact absurd (List.append_cancel_left h).symm (ne_cons_of_first_ne hrest'.2.1)
  | .starred base exponent, .starred base' exponent' => by
    have h : base.yield ++ Byte.star :: (exponent.yield ++ rest) =
        base'.yield ++ Byte.star :: (exponent'.yield ++ rest') := by
      simpa using h
    rw [Tree.nesting] at hn
    obtain rfl := hsum base base' _ _ (by omega) (endsAt_star_sum _) (endsAt_star_sum _) h
    have htail : exponent.yield ++ rest = exponent'.yield ++ rest' := by
      simpa using List.append_cancel_left h
    rw [eq_of_expression hsum exponent exponent' (by omega) hrest hrest' htail]

theorem unambiguous_expression (d : Dialect) (n : Nat) : Unambiguous d .expression n := by
  induction n using Nat.strongRecOn with
  | ind n ih =>
    have hsum := unambiguous_sum (unambiguous_addend (unambiguous_operand ih))
    intro t u rest rest' hn hrest hrest' h
    cases d with
    | standard =>
      cases t with | whole s
      cases u with | whole s'
      rw [hsum s s' rest rest' hn (endsAt_sum hrest) (endsAt_sum hrest') h]
    | ternary => exact eq_of_expression hsum t u hn hrest hrest' h

namespace Tree

theorem yield_injective {t u : Tree d .expression} (h : t.yield = u.yield) : t = u := by
  have hfinish : Category.expression.EndsAt d (.first []) := Category.endsAt_terminator rfl
  exact unambiguous_expression d t.nesting t u [] [] (Nat.le_refl _) hfinish hfinish (by simp [h])

end Tree

end Reckon
