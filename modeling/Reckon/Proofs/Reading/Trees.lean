import Reckon.Proofs.Reading.Literal
import Reckon.Proofs.Syntax.Tree

/-!
# Reading the text of a tree

In front of the text of a tree a production does what the evaluation of the tree says: it gives
the same value and stops behind the text, or fails with the same failure. Nothing is assumed
about the limit or about the sizes of the values.
-/

namespace Reckon

open Production Exact

/-- `v` stands for `i`, and the reader has come to `rest`. -/
def Lands (limit depth : Nat) (done rest : List UInt8) (v : Value) (i : Int) (r : Reader) : Prop :=
  v.toInt = i ∧ r.At limit depth done rest

/-- `p` reads the texts of the trees of a category. -/
def Reads (d : Dialect) (c : Category) (p : Production Value) (limit depth : Nat) : Prop :=
  ∀ (t : Tree d c) (r : Reader) (done rest : List UInt8),
    r.At limit depth done (t.yield ++ rest) → c.EndsAt d (.first rest) →
    p.Follows r (t.walk (Tree.limited limit) depth done.length)
      (Lands limit depth (done ++ t.yield) rest)

/-- `p` reads the texts of expressions one level further down, if there is one. -/
def ReadsInner (d : Dialect) (p : Production Value) (limit depth : Nat) : Prop :=
  ∀ (t : Tree d .expression) (r : Reader) (done rest : List UInt8),
    r.At limit depth done (t.yield ++ rest) → Category.expression.EndsAt d (.first rest) →
    (deeper p).Follows r
      (do
        Tree.limited limit depth done.length
        t.walk (Tree.limited limit) (depth + 1) done.length)
      (Lands limit depth (done ++ t.yield) rest)

variable {d : Dialect} {limit depth : Nat} {inner operand addend : Production Value}

theorem follows_located {place : Position} {x : Except ArithmeticError Value}
    {w : Except ArithmeticError Int} {r : Reader} {Q : Value → Int → Reader → Prop}
    (hx : x.map Int64.toInt = w) (hQ : ∀ v, Q v v.toInt r) :
    (Production.located place x).Follows r (Tree.located place w) Q := by
  subst hx
  cases x with
  | ok v => exact ⟨v.toInt, rfl, hQ v⟩
  | error cause => exact rfl

/-! ## Operands -/

theorem readsOperand (hinner : ReadsInner d inner limit depth) :
    Reads d .operand (operandOver inner) limit depth := by
  intro t r done rest h hrest
  unfold Follows operandOver
  rw [meets_bind, meets_lookahead]
  cases t with
  | literal n =>
    obtain ⟨b, bytes, hn⟩ := List.exists_cons_of_ne_nil n.bytes_ne_nil
    have hb : Byte.IsDigit b := n.isDigit_of_mem_bytes b (by simp [hn])
    have hdigit : r.lookahead.isDigit = true := by
      rw [h.lookahead, Tree.yield, hn, List.cons_append, Symbol.first_cons]
      simpa using hb
    rw [if_pos hdigit]
    refine meets_mono (follows_literal hrest.1 h) ?_ ?_
    · rintro v r' ⟨hfit, h'⟩
      exact ⟨v.toInt, by rw [Tree.walk_literal, hfit]; rfl, rfl, h'⟩
    · rintro e r' ⟨cause, hfit, rfl⟩
      rw [Tree.walk_literal, hfit]
      rfl
  | parens e =>
    have h : r.At limit depth done (Byte.openParen :: (e.yield ++ Byte.closeParen :: rest)) := by
      simpa using h
    have hlook : r.lookahead = .openParen := h.lookahead
    rw [hlook, if_neg (by decide), if_pos rfl, meets_bind]
    apply meets_advance h (by decide)
    intro r₁ h₁
    rw [Tree.walk_parens,
      ← bind_pure (Tree.limited limit depth (done.length + 1) >>= fun _ => _)]
    rw [show done.length + 1 = (done ++ [Byte.openParen]).length by simp]
    refine follows_bind (hinner e r₁ _ _ h₁ Category.endsAt_closeParen) ?_
    rintro v i r₂ ⟨hv, h₂⟩
    unfold Follows
    rw [meets_bind]
    apply meets_require h₂ (by decide)
    intro r₃ h₃
    exact ⟨i, rfl, hv, by simpa using h₃⟩

/-! ## Sums -/

theorem run_sumStep_of_sign {v : Value} {r : Reader} (s : Sign)
    (h : r.lookahead = .byte s.byte) :
    (sumStep addend v).run r = (applyTo addend v s.checked).run r := by
  unfold sumStep
  rw [run_bind_lookahead, h]
  cases s <;> rfl

theorem run_sumStep_of_ne {v : Value} {r : Reader} (hplus : r.lookahead ≠ .plus)
    (hminus : r.lookahead ≠ .minus) : (sumStep addend v).run r = (.ok none, r) := by
  unfold sumStep
  rw [run_bind_lookahead, if_neg hplus, if_neg hminus, run_pure]

theorem follows_applyTo (haddend : Reads d .addend addend limit depth) (s : Sign)
    (a : Tree d .addend) {v : Value} {r : Reader} {done rest : List UInt8}
    (h : r.At limit depth done (s.byte :: (a.yield ++ rest)))
    (hrest : Category.addend.EndsAt d (.first rest)) :
    (applyTo addend v s.checked).Follows r
      (do
        let i ← a.walk (Tree.limited limit) depth (done.length + 1)
        Tree.located ⟨0, done.length⟩ (fit s.operation (s.apply v.toInt i)))
      fun next i r' =>
        ∃ w, next = some w ∧ Lands limit depth (done ++ s.byte :: a.yield) rest w i r' := by
  unfold Follows applyTo
  rw [meets_bind, meets_position, meets_bind]
  apply meets_advance h (by cases s <;> decide)
  intro r₁ h₁
  rw [h.position, show done.length + 1 = (done ++ [s.byte]).length by simp]
  refine follows_bind (haddend a r₁ _ rest h₁ hrest) ?_
  rintro w i r₂ ⟨rfl, h₂⟩
  rw [← bind_pure (Tree.located _ _)]
  refine follows_bind (follows_located (s.checked_exact v w)
    (Q := Lands limit depth (done ++ s.byte :: a.yield) rest) fun v => ⟨rfl, by simpa using h₂⟩) ?_
  intro w i r₃ h₃
  exact follows_pure ⟨w, rfl, h₃⟩

/-- A loop whose rounds begin with a sign reads the text of a sum, and goes on behind it. -/
theorem follows_sum {step : Value → Production (Option Value)} {moves : ∀ v, (step v).Moves}
    (hstep : ∀ v r (s : Sign), r.lookahead = .byte s.byte →
      (step v).run r = (applyTo addend v s.checked).run r)
    (haddend : Reads d .addend addend limit depth) (t : Tree d .sum)
    {r : Reader} {done rest : List UInt8} {k : Int → Except Failure Int}
    {Q : Value → Int → Reader → Prop} (h : r.At limit depth done (t.yield ++ rest))
    (hrest : Category.addend.EndsAt d (.first rest))
    (hloop : ∀ v i r', Lands limit depth (done ++ t.yield) rest v i r' →
      (repeatWhile step moves v).Follows r' (k i) Q) :
    (do let first ← addend; repeatWhile step moves first).Follows r
      (t.walk (Tree.limited limit) depth done.length >>= k) Q :=
  -- A sum is taken apart from its right end, so the loop that goes on is part of the statement.
  match t with
  | .start a => follows_bind (haddend a r done rest h hrest) hloop
  | .more left s a => by
    have h : r.At limit depth done (left.yield ++ s.byte :: (a.yield ++ rest)) := by
      simpa using h
    rw [Tree.walk_more, bind_assoc]
    refine follows_sum hstep haddend left h (Category.endsAt_sign s) ?_
    rintro v i r₁ ⟨rfl, h₁⟩
    rw [show done.length + left.yield.length = (done ++ left.yield).length by simp]
    refine follows_repeatWhile ?_
    refine follows_congr (hstep v r₁ s h₁.lookahead) ?_
    apply meets_ok_mono (follows_applyTo haddend s a h₁ hrest)
    rintro next r₂ ⟨i, hi, w, rfl, hw, h₂⟩
    exact ⟨i, hi, w, rfl, hloop w i r₂ ⟨hw, by simpa using h₂⟩⟩

/-! ## Chains of powers -/

/-- Raises from the right, as a chain is folded. -/
def raiseAll (bases : List (Value × Position)) (i : Int) : Except Failure Int :=
  bases.foldlM (fun x (base, place) => Tree.located place (raise base.toInt x)) i

theorem follows_fold (bases : List (Value × Position)) (v : Value) (r : Reader) :
    (Chain.fold ⟨bases, v⟩).Follows r (raiseAll bases v.toInt)
      fun w i r' => w.toInt = i ∧ r' = r := by
  induction bases generalizing v with
  | nil => exact follows_pure ⟨rfl, rfl⟩
  | cons base bases ih =>
    unfold Chain.fold raiseAll
    simp only [List.foldlM_cons]
    refine follows_bind (follows_located (Value.power_exact base.1 v)
      (Q := fun w i r' => w.toInt = i ∧ r' = r) fun w => ⟨rfl, rfl⟩) ?_
    rintro w i _ ⟨rfl, rfl⟩
    exact ih w

theorem run_chainStep_of_ne {chain : Chain} {r : Reader} (h : r.lookahead ≠ .star) :
    (chainStep operand chain).run r = (.ok none, r) := by
  unfold chainStep
  rw [run_bind_lookahead, if_neg h, run_pure]

theorem run_chainStep_of_star {chain : Chain} {r : Reader} (h : r.lookahead = .star) :
    (chainStep operand chain).run r =
      (do
        let _ ← advance
        require Byte.star
        let next ← operand
        return some ⟨(chain.last, r.position) :: chain.bases, next⟩ : Production _).run r := by
  unfold chainStep
  rw [run_bind_lookahead, if_pos h, run_bind_position]

/-- The bases that were read before the chain come on top of it when it is folded. -/
theorem follows_chain (hoperand : Reads .standard .operand operand limit depth)
    (t : Tree .standard .addend) (bases : List (Value × Position)) {r : Reader}
    {done rest : List UInt8} (h : r.At limit depth done (t.yield ++ rest))
    (hrest : Category.addend.EndsAt .standard (.first rest)) :
    (do
      let last ← operand
      let chain ← repeatWhile (chainStep operand) (chainStep_moves operand) ⟨bases, last⟩
      chain.fold).Follows r
      (t.walk (Tree.limited limit) depth done.length >>= raiseAll bases)
      (Lands limit depth (done ++ t.yield) rest) :=
  match t with
  | .single o => by
    refine follows_bind (hoperand o r done rest h ⟨hrest.1, trivial⟩) ?_
    rintro v i r₁ ⟨rfl, h₁⟩
    have hstop : r₁.lookahead ≠ .star := by rw [h₁.lookahead]; exact hrest.2 rfl
    unfold Follows
    rw [meets_bind, meets_congr (q := pure ⟨bases, v⟩)
      (run_repeatWhile_of_none (run_chainStep_of_ne hstop)), meets_pure]
    apply meets_ok_mono (follows_fold bases v r₁)
    rintro w r' ⟨i, hi, hw, rfl⟩
    exact ⟨i, hi, hw, h₁⟩
  | .raised base exponent => by
    have h : r.At limit depth done
        (base.yield ++ Byte.star :: Byte.star :: (exponent.yield ++ rest)) := by
      simpa using h
    rw [Tree.walk_raised]
    simp only [bind_assoc]
    refine follows_bind (hoperand base r done _ h ⟨rfl, trivial⟩) ?_
    rintro v i r₁ ⟨rfl, h₁⟩
    unfold Follows
    rw [meets_bind, meets_repeatWhile, meets_congr (run_chainStep_of_star h₁.lookahead), meets_bind]
    apply meets_advance h₁ (by decide)
    intro r₂ h₂
    rw [meets_bind]
    apply meets_require h₂ (by decide)
    intro r₃ h₃
    have hchain := follows_chain hoperand exponent ((v, r₁.position) :: bases) h₃ hrest
    have hlength : (done ++ base.yield ++ [Byte.star] ++ [Byte.star]).length =
        done.length + base.yield.length + 2 := by simp; omega
    have hraise : raiseAll ((v, r₁.position) :: bases) = fun i =>
        Tree.located ⟨0, done.length + base.yield.length⟩ (raise v.toInt i) >>= raiseAll bases := by
      rw [h₁.position, List.length_append]
      rfl
    rw [hlength, hraise] at hchain
    simpa only [Follows, meets_bind, meets_pure, Lands, Tree.yield, List.append_assoc,
      List.cons_append, List.nil_append] using hchain

theorem readsChain (hoperand : Reads .standard .operand operand limit depth) :
    Reads .standard .addend (powerChain operand) limit depth := by
  intro t r done rest h hrest
  rw [← bind_pure (t.walk _ _ _)]
  exact follows_chain hoperand t [] h hrest

/-! ## Expressions -/

theorem readsExpression_standard (haddend : Reads .standard .addend addend limit depth) :
    Reads .standard .expression (sum addend) limit depth := by
  rintro (_ | _ | _ | _ | _ | _ | s) r done rest h ⟨hdigit, hstar, hplus, hminus⟩
  rw [Tree.walk_whole, ← bind_pure (s.walk _ _ _)]
  refine follows_sum (fun v r s => run_sumStep_of_sign s) haddend s h ⟨hdigit, fun _ => hstar⟩ ?_
  rintro v i r' ⟨hv, h'⟩
  have hstop : (sumStep addend v).run r' = (.ok none, r') :=
    run_sumStep_of_ne (by rwa [h'.lookahead]) (by rwa [h'.lookahead])
  exact follows_congr (q := pure v) (run_repeatWhile_of_none hstop) (follows_pure ⟨hv, h'⟩)

theorem run_applyTo_ne_none {v : Value}
    {operation : Value → Value → Except ArithmeticError Value} {r r' : Reader} :
    (applyTo addend v operation).run r ≠ (.ok none, r') := by
  unfold applyTo
  simp only [← bind_assoc]
  exact run_bind_some_ne_none

theorem run_ternaryStep_of_sign {v : Value} {r : Reader} (s : Sign)
    (h : r.lookahead = .byte s.byte) :
    (ternaryStep inner v).run r = (applyTo (operandOver inner) v s.checked).run r := by
  unfold ternaryStep
  rw [run_bind, run_sumStep_of_sign s h]
  rcases hr : (applyTo (operandOver inner) v s.checked).run r with ⟨e | _ | w, r'⟩
  · rfl
  · exact absurd hr run_applyTo_ne_none
  · rfl

theorem run_ternaryStep_of_ne {v : Value} {r : Reader} (hplus : r.lookahead ≠ .plus)
    (hminus : r.lookahead ≠ .minus) : (ternaryStep inner v).run r = (starStep inner v).run r := by
  unfold ternaryStep
  rw [run_bind_ok (run_sumStep_of_ne hplus hminus)]

theorem run_starStep_of_star {v : Value} {r : Reader} (h : r.lookahead = .star) :
    (starStep inner v).run r =
      (do
        let _ ← advance
        let exponent ← deeper inner
        let result ← Production.located r.position (v.power exponent)
        return some result : Production _).run r := by
  unfold starStep
  rw [run_bind_lookahead, if_pos h, run_bind_position]

theorem run_starStep_of_ne {v : Value} {r : Reader} (h : r.lookahead ≠ .star) :
    (starStep inner v).run r = (.ok none, r) := by
  unfold starStep
  rw [run_bind_lookahead, if_neg h, run_pure]

theorem readsAddend_ternary (hoperand : Reads .ternary .operand operand limit depth) :
    Reads .ternary .addend operand limit depth := by
  rintro (_ | _ | o) r done rest h hrest
  exact hoperand o r done rest h ⟨hrest.1, trivial⟩

theorem follows_ternary_stop {v : Value} {i : Int} {r : Reader} {done rest : List UInt8}
    (h : Lands limit depth done rest v i r)
    (hrest : Category.expression.EndsAt .ternary (.first rest)) :
    (repeatWhile (ternaryStep inner) (ternaryStep_moves inner) v).Follows r (.ok i)
      (Lands limit depth done rest) := by
  obtain ⟨hdigit, hstar, hplus, hminus⟩ := hrest
  rw [← h.2.lookahead] at hstar hplus hminus
  have hstop : (ternaryStep inner v).run r = (.ok none, r) := by
    rw [run_ternaryStep_of_ne hplus hminus, run_starStep_of_ne hstar]
  exact follows_congr (q := pure v) (run_repeatWhile_of_none hstop) (follows_pure h)

theorem readsExpression_ternary (hinner : ReadsInner .ternary inner limit depth) :
    Reads .ternary .expression (Grammar.ternary.expressionOver inner) limit depth := by
  intro t r done rest h hrest
  have haddend := readsAddend_ternary (readsOperand hinner)
  cases t with
  | whole s =>
    rw [Tree.walk_whole, ← bind_pure (s.walk _ _ _)]
    refine follows_sum (fun v r s => run_ternaryStep_of_sign s) haddend s h
      ⟨hrest.1, fun h => absurd h (by decide)⟩ ?_
    intro v i r' h'
    exact follows_ternary_stop h' hrest
  | starred base exponent =>
    have h : r.At limit depth done (base.yield ++ Byte.star :: (exponent.yield ++ rest)) := by
      simpa using h
    rw [Tree.walk_starred]
    refine follows_sum (fun v r s => run_ternaryStep_of_sign s) haddend base h
      Category.endsAt_star ?_
    rintro v i r₁ ⟨rfl, h₁⟩
    have hlook : r₁.lookahead = .star := h₁.lookahead
    have hrun : (ternaryStep inner v).run r₁ = (starStep inner v).run r₁ :=
      run_ternaryStep_of_ne (by rw [hlook]; decide) (by rw [hlook]; decide)
    rw [← bind_pure (Tree.limited limit depth (done.length + base.yield.length + 1) >>= _)]
    refine follows_repeatWhile (follows_congr (hrun.trans (run_starStep_of_star hlook)) ?_)
    unfold Follows
    rw [meets_bind, h₁.position]
    apply meets_advance h₁ (by decide)
    intro r₂ h₂
    have hlength : (done ++ base.yield ++ [Byte.star]).length =
        done.length + base.yield.length + 1 := by simp; omega
    have hexponent := hinner exponent r₂ _ rest h₂ hrest
    rw [hlength] at hexponent
    rw [← bind_assoc (Tree.limited _ _ _), List.length_append]
    refine follows_bind hexponent ?_
    rintro x j r₃ ⟨rfl, h₃⟩
    rw [← bind_pure (Tree.located _ _)]
    refine follows_bind (follows_located (Value.power_exact v x)
      (Q := Lands limit depth (done ++ (Tree.starred base exponent).yield) rest)
      fun w => ⟨rfl, by simpa using h₃⟩) ?_
    intro w k r₄ h₄
    exact follows_pure ⟨w, rfl, follows_ternary_stop h₄ hrest⟩

/-! ## Levels -/

theorem readsExpression (hinner : ReadsInner d inner limit depth) :
    Reads d .expression (d.grammar.expressionOver inner) limit depth := by
  cases d with
  | standard => exact readsExpression_standard (readsChain (readsOperand hinner))
  | ternary => exact readsExpression_ternary hinner

theorem reads_within (d : Dialect) (levels : Nat) :
    ∀ limit depth, limit - depth = levels →
      Reads d .expression (d.grammar.expressionOver (d.grammar.within levels)) limit depth := by
  induction levels with
  | zero =>
    intro limit depth hlevels
    apply readsExpression
    intro t r done rest h hrest
    have hle : limit ≤ depth := by omega
    unfold Follows
    rw [meets_deeper_of_le (by rw [h.limit, h.depth]; exact hle), h.overrun]
    simp only [Tree.limited, if_pos hle]
    rfl
  | succ levels ih =>
    intro limit depth hlevels
    apply readsExpression
    intro t r done rest h hrest
    unfold Follows
    rw [meets_deeper_of_lt (by rw [h.limit, h.depth]; omega)]
    simp only [Tree.limited, if_neg (show ¬ limit ≤ depth by omega)]
    refine meets_mono (ih limit (depth + 1) (by omega) t r.enter done rest h.enter hrest) ?_ ?_
    · rintro v r' ⟨i, hi, hv, h'⟩
      exact ⟨i, hi, hv, h'.leave⟩
    · intro e r' he
      exact he

theorem reads_expression (d : Dialect) (limit depth : Nat) :
    Reads d .expression d.grammar.expression limit depth := by
  intro t r done rest h hrest
  have hwithin := reads_within d (limit - depth) limit depth rfl t r done rest h hrest
  rw [← h.limit, ← h.depth] at hwithin ⊢
  exact hwithin

end Reckon
