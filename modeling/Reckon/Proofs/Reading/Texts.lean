import Reckon.Proofs.Reading.Blame
import Reckon.Proofs.Reading.Trees

/-!
# What has been read is a tree

From a place where a tree may stand, a production reads the text of one and stops where it has
to, or fails with a failure that is true of the text. Nothing is assumed about the text.
-/

namespace Reckon

open Production Byte Exact

/-- The reader stands behind `before` and a tree that nests no deeper than `room`, in front of a
symbol that closes `stop`. -/
def Reached (d : Dialect) (c stop : Category) (text : List UInt8) (limit depth room : Nat)
    (before : List UInt8) (r : Reader) : Prop :=
  ∃ t : Tree d c, t.nesting ≤ room ∧ r.Behind text limit depth (before ++ t.yield) ∧
    stop.Closes d r.lookahead

/-- `p` reads trees of a category where they may stand. -/
def Recognizes (d : Dialect) (c : Category) (p : Production Value) (limit depth : Nat) : Prop :=
  ∀ (text before : List UInt8) (r : Reader), r.Behind text limit depth before →
    Opens d c before →
    p.Meets r (fun _ => Reached d c c text limit depth (limit - depth) before) (Blames d text)

/-- `p` reads expressions one level further down, if there is one. -/
def RecognizesInner (d : Dialect) (p : Production Value) (limit depth : Nat) : Prop :=
  ∀ (text before : List UInt8) (r : Reader), r.Behind text limit depth before →
    Opens d .expression before →
    (deeper p).Meets r
      (fun _ r' => depth < limit ∧
        Reached d .expression .expression text limit depth (limit - depth - 1) before r')
      (Blames d text)

variable {d : Dialect} {text before : List UInt8} {limit depth : Nat} {r : Reader}
  {inner operand addend : Production Value}

/-! ## Operands -/

theorem not_mem_append_digits {run : List UInt8} (hline : newline ∉ before)
    (hrun : ∀ b ∈ run, IsDigit b) : newline ∉ before ++ run := by
  rw [List.mem_append]
  rintro (hmem | hmem)
  · exact hline hmem
  · exact (hrun newline hmem).ne_newline rfl

theorem meets_zero_behind {rest : List UInt8} (hline : newline ∉ before)
    (hopens : Opens d .operand before) (h : r.At limit depth before (zero :: rest)) :
    literal.Meets r
      (fun _ => Reached d .operand .operand (before ++ zero :: rest) limit depth 0 before)
      (Blames d (before ++ zero :: rest)) := by
  have hbehind (r' : Reader) (h' : r'.At limit depth (before ++ [zero]) rest) :
      r'.Behind (before ++ zero :: rest) limit depth (before ++ [zero]) :=
    ⟨not_mem_append_digits hline (Numeral.isDigit_of_mem_bytes .zero), rest, by simp, h'⟩
  refine meets_literal_of_zero h (fun _ r' h' => ?_) fun hrest r' h' => ?_
  · exact ⟨.literal .zero, Nat.le_refl _, hbehind r' h', trivial⟩
  · refine (hbehind r' h').refused (hopens.viable_yield (.literal .zero)) ⟨?_, ?_⟩
    · exact ⟨before, rfl, hopens.last_not_digit⟩
    · rwa [h'.lookahead]

theorem meets_digits_behind {lead : UInt8} {rest : List UInt8} (hline : newline ∉ before)
    (hopens : Opens d .operand before) (hlead : IsDigit lead) (hne : lead ≠ zero)
    (h : r.At limit depth before (lead :: rest)) :
    literal.Meets r
      (fun _ => Reached d .operand .operand (before ++ lead :: rest) limit depth 0 before)
      (Blames d (before ++ lead :: rest)) := by
  obtain ⟨run, rest, rfl, hrun, hrest⟩ := Numeral.exists_run rest
  have hbehind (u : List UInt8) (hu : ∀ b ∈ u, IsDigit b) (ahead : List UInt8) (r' : Reader)
      (hahead : run ++ rest = u ++ ahead) (h' : r'.At limit depth (before ++ lead :: u) ahead) :
      r'.Behind (before ++ lead :: (run ++ rest)) limit depth (before ++ lead :: u) :=
    ⟨not_mem_append_digits hline (Numeral.isDigit_of_mem_bytes (.digits lead u hlead hne hu)),
      ahead, by simp [hahead], h'⟩
  refine meets_literal_of_lead hlead hne hrun hrest h (fun v r' _ h' => ?_) ?_
  · exact ⟨.literal (.digits lead run hlead hne hrun), Nat.le_refl _,
      hbehind run hrun rest r' rfl h', trivial⟩
  · intro u b more r' hsplit hrange h'
    have hu : ∀ b ∈ u, IsDigit b := fun b hb => hrun b (by simp [hsplit, hb])
    refine (hbehind u hu _ r' (by simp [hsplit]) h').arithmetic
      (hopens.viable_yield (.literal (.digits lead u hlead hne hu))) (by simp)
      ⟨?_, ⟨lead, by simp, hlead, hne⟩, ?_⟩
    · simpa using hopens.last_not_digit
    · have hdigits : (lead :: run ++ rest).takeWhile (fun b => decide (IsDigit b)) = lead :: run :=
        Numeral.takeWhile_digits
          (Numeral.isDigit_of_mem_bytes (.digits lead run hlead hne hrun)) hrest
      rw [List.drop_left, ← List.cons_append, hdigits, hsplit]
      simpa using not_inRange_number_append hrange more

theorem meets_literal_behind (h : r.Behind text limit depth before)
    (hopens : Opens d .operand before) (hdigit : r.lookahead.isDigit = true) :
    literal.Meets r (fun _ => Reached d .operand .operand text limit depth 0 before)
      (Blames d text) := by
  obtain ⟨hline, ahead, rfl, hat⟩ := h
  rw [hat.lookahead] at hdigit
  obtain ⟨lead, rest, rfl, hlead⟩ := Symbol.eq_cons_of_isDigit_first hdigit
  by_cases hzero : lead = zero
  · subst hzero
    exact meets_zero_behind hline hopens hat
  · exact meets_digits_behind hline hopens hlead hzero hat

theorem recognizesOperand (hinner : RecognizesInner d inner limit depth) :
    Recognizes d .operand (operandOver inner) limit depth := by
  intro text before r h hopens
  unfold operandOver
  rw [meets_bind, meets_lookahead]
  by_cases hdigit : r.lookahead.isDigit = true
  · rw [if_pos hdigit]
    apply meets_ok_mono (meets_literal_behind h hopens hdigit)
    rintro v r' ⟨t, ht, h', hcloses⟩
    exact ⟨t, by omega, h', hcloses⟩
  rw [if_neg hdigit]
  by_cases hparen : r.lookahead = .openParen
  · rw [if_pos hparen, meets_bind]
    apply meets_advance_behind h hparen (by decide)
    intro r₁ h₁
    rw [meets_bind]
    apply meets_ok_mono (hinner text _ r₁ h₁ hopens.behind_openParen)
    rintro v r₂ ⟨hlt, t, ht, h₂, -⟩
    rw [meets_bind]
    refine meets_require_behind h₂ (by decide) ?_ fun r₃ h₃ => ?_
    · simpa using hopens.viable_yield (.parens t)
    · exact ⟨.parens t, by rw [Tree.nesting]; omega, by simpa using h₃, trivial⟩
  · rw [if_neg hparen, meets_refuse]
    refine h.refused hopens.viable ⟨fun b hb => ?_, hopens.behind_openParen.viable⟩
    simpa using hopens.viable_yield (.literal (.ofDigit b hb))

/-! ## Sums -/

theorem Symbol.sign_or_ne (s : Symbol) :
    (∃ sign : Sign, s = .byte sign.byte) ∨ (s ≠ .plus ∧ s ≠ .minus) := by
  by_cases hplus : s = .plus
  · exact .inl ⟨.plus, hplus⟩
  by_cases hminus : s = .minus
  · exact .inl ⟨.minus, hminus⟩
  exact .inr ⟨hplus, hminus⟩

theorem meets_applyTo_behind (haddend : Recognizes d .addend addend limit depth)
    (hopens : Opens d .sum before) {left : Tree d .sum} (hleft : left.nesting ≤ limit - depth)
    (h : r.Behind text limit depth (before ++ left.yield)) {s : Sign}
    (hs : r.lookahead = .byte s.byte) {v : Value} :
    (applyTo addend v s.checked).Meets r
      (fun next r' => ∃ w, next = some w ∧
        Reached d .sum .addend text limit depth (limit - depth) before r')
      (Blames d text) := by
  unfold applyTo
  rw [meets_bind, meets_position, meets_bind]
  apply meets_advance_behind h hs (by cases s <;> decide)
  intro r₁ h₁
  rw [meets_bind]
  apply meets_ok_mono (haddend text _ r₁ h₁ (hopens.behind_sign left s))
  rintro w r₂ ⟨a, ha, h₂, hcloses⟩
  rw [meets_bind]
  rcases hresult : s.checked v w with cause | result
  · rw [meets_located_error, h.position]
    exact h₂.arithmetic ((hopens.behind_sign left s).viable_yield a) (by simp)
      (s.arisesIn hresult (h.getElem?_of_lookahead hs))
  · rw [meets_located_ok, meets_pure]
    refine ⟨result, rfl, .more left s a, ?_, by simpa using h₂, hcloses⟩
    rw [Tree.nesting]
    omega

theorem recognizesSum (haddend : Recognizes d .addend addend limit depth) :
    Recognizes d .sum (sum addend) limit depth := by
  intro text before r h hopens
  unfold sum
  rw [meets_bind]
  apply meets_ok_mono (haddend text before r h hopens.addend)
  rintro first r₁ ⟨a, ha, h₁, hcloses⟩
  refine meets_repeatWhile_of_invariant
    (fun _ => Reached d .sum .addend text limit depth (limit - depth) before) ?_
    ⟨.start a, ha, h₁, hcloses⟩
  rintro v r₂ ⟨t, ht, h₂, hcloses⟩
  rcases r₂.lookahead.sign_or_ne with ⟨s, hs⟩ | ⟨hplus, hminus⟩
  · rw [meets_congr (run_sumStep_of_sign s hs)]
    apply meets_ok_mono (meets_applyTo_behind haddend hopens ht h₂ hs)
    rintro _ r₃ ⟨w, rfl, hreached⟩
    exact hreached
  · rw [meets_congr (q := pure none) (run_sumStep_of_ne hplus hminus), meets_pure]
    exact ⟨t, ht, h₂, hcloses, hplus, hminus⟩

/-! ## Chains of powers -/

/-- The places of the operators between the bases of a chain, as the reader left them behind. -/
def Chain.Placed (chain : Chain) (text before : List UInt8) : Prop :=
  ∀ base ∈ chain.bases, base.2.line = 0 ∧ base.2.column ≤ before.length ∧
    StarIn .standard text base.2.column

theorem meets_fold_behind (h : r.Behind text limit depth before)
    (hviable : Viable .standard before) (bases : List (Value × Position)) (v : Value)
    (hplaced : (Chain.mk bases v).Placed text before) :
    (Chain.fold ⟨bases, v⟩).Meets r (fun _ r' => r' = r) (Blames .standard text) := by
  induction bases generalizing v with
  | nil => exact rfl
  | cons base bases ih =>
    obtain ⟨b, line, column⟩ := base
    obtain ⟨rfl, hcolumn, hstar⟩ := hplaced _ List.mem_cons_self
    unfold Chain.fold
    simp only [List.foldlM_cons, meets_bind]
    rcases hpower : b.power v with cause | w
    · rw [meets_located_error]
      exact h.arithmetic hviable hcolumn (Value.power_arisesIn hpower hstar)
    · rw [meets_located_ok]
      exact ih w fun base hbase => hplaced base (List.mem_cons_of_mem _ hbase)

/-- The reader stands behind the operands of the chain. -/
def ChainReached (text : List UInt8) (limit depth : Nat) (before : List UInt8) (chain : Chain)
    (r : Reader) : Prop :=
  ∃ t : Tree .standard .addend, t.nesting ≤ limit - depth ∧
    r.Behind text limit depth (before ++ t.yield) ∧ chain.Placed text (before ++ t.yield)

theorem placed_cons {chain : Chain} {more : List UInt8} {place : Position} {next : Value}
    (hchain : chain.Placed text before) (hplace : place = ⟨0, before.length⟩)
    (hstar : StarIn .standard text before.length) :
    (Chain.mk ((chain.last, place) :: chain.bases) next).Placed text (before ++ more) := by
  intro base hbase
  rcases List.mem_cons.mp hbase with rfl | hbase
  · rw [hplace]
    exact ⟨rfl, by simp, hstar⟩
  · obtain ⟨hline, hcolumn, hplace⟩ := hchain base hbase
    exact ⟨hline, by simp; omega, hplace⟩

theorem meets_chainStep_behind (hoperand : Recognizes .standard .operand operand limit depth)
    (hopens : Opens .standard .addend before) {chain : Chain}
    (h : ChainReached text limit depth before chain r) (hstar : r.lookahead = .star) :
    (chainStep operand chain).Meets r
      (fun next r' => ∃ chain', next = some chain' ∧
        ChainReached text limit depth before chain' r')
      (Blames .standard text) := by
  obtain ⟨t, ht, hbehind, hplaced⟩ := h
  rw [meets_congr (run_chainStep_of_star hstar), meets_bind]
  apply meets_advance_behind hbehind hstar (by decide)
  intro r₁ h₁
  rw [meets_bind]
  apply meets_require_behind h₁ (by decide) (hopens.behind_stars t).viable
  intro r₂ h₂
  rw [meets_bind]
  apply meets_ok_mono (hoperand text _ r₂ h₂ (hopens.behind_stars t))
  rintro next r₃ ⟨o, ho, h₃, -⟩
  rw [meets_pure]
  have hyield : before ++ (t.extend o).yield = before ++ t.yield ++ ([star, star] ++ o.yield) := by
    simp [Tree.yield_extend]
  refine ⟨_, rfl, t.extend o, ?_, ?_, ?_⟩
  · rw [Tree.nesting_extend]
    omega
  · simpa [Tree.yield_extend] using h₃
  · rw [hyield]
    refine placed_cons hplaced hbehind.position ⟨hbehind.getElem?_of_lookahead hstar, fun _ => ?_⟩
    have hsecond : (before ++ t.yield).length + 1 = (before ++ t.yield ++ [star]).length := by
      simp; omega
    rw [hsecond, h₂.getElem?_eq (by simp), List.getElem?_concat_length]

theorem recognizesChain (hoperand : Recognizes .standard .operand operand limit depth) :
    Recognizes .standard .addend (powerChain operand) limit depth := by
  intro text before r h hopens
  unfold powerChain
  rw [meets_bind]
  apply meets_ok_mono (hoperand text before r h hopens.operand)
  rintro first r₁ ⟨o, ho, h₁, -⟩
  rw [meets_bind]
  refine meets_repeatWhile_of_invariant (ChainReached text limit depth before) ?_
    ⟨.single o, ho, h₁, by simp [Chain.Placed]⟩
  intro chain r₂ hchain
  by_cases hstar : r₂.lookahead = .star
  · apply meets_ok_mono (meets_chainStep_behind hoperand hopens hchain hstar)
    rintro _ r₃ ⟨chain', rfl, hchain'⟩
    exact hchain'
  · obtain ⟨t, ht, h₂, hplaced⟩ := hchain
    rw [meets_congr (q := pure none) (run_chainStep_of_ne hstar), meets_pure]
    apply meets_ok_mono (meets_fold_behind h₂ (hopens.viable_yield t) chain.bases chain.last
      hplaced)
    rintro v _ rfl
    exact ⟨t, ht, h₂, fun _ => hstar⟩

/-! ## Expressions -/

theorem recognizesExpression_standard (haddend : Recognizes .standard .addend addend limit depth) :
    Recognizes .standard .expression (sum addend) limit depth := by
  intro text before r h hopens
  apply meets_ok_mono (recognizesSum haddend text before r h hopens.sum)
  rintro v r' ⟨t, ht, h', hstar, hsigns⟩
  exact ⟨.whole t, ht, h', hstar rfl, hsigns⟩

theorem recognizesAddend_ternary (hoperand : Recognizes .ternary .operand operand limit depth) :
    Recognizes .ternary .addend operand limit depth := by
  intro text before r h hopens
  apply meets_ok_mono (hoperand text before r h hopens.operand)
  rintro v r' ⟨t, ht, h', -⟩
  exact ⟨.single t, ht, h', by simp [Category.Closes]⟩

theorem meets_starStep_behind (hinner : RecognizesInner .ternary inner limit depth)
    (hopens : Opens .ternary .expression before) {base : Tree .ternary .sum}
    (hbase : base.nesting ≤ limit - depth)
    (h : r.Behind text limit depth (before ++ base.yield)) (hstar : r.lookahead = .star)
    {v : Value} :
    (starStep inner v).Meets r
      (fun next r' => ∃ w, next = some w ∧
        Reached .ternary .expression .expression text limit depth (limit - depth) before r')
      (Blames .ternary text) := by
  rw [meets_congr (run_starStep_of_star hstar), meets_bind]
  apply meets_advance_behind h hstar (by decide)
  intro r₁ h₁
  rw [meets_bind]
  apply meets_ok_mono (hinner text _ r₁ h₁ (hopens.behind_star base))
  rintro x r₂ ⟨hlt, exponent, hexponent, h₂, hcloses⟩
  rw [meets_bind]
  rcases hpower : v.power x with cause | w
  · rw [meets_located_error, h.position]
    refine h₂.arithmetic ((hopens.behind_star base).viable_yield exponent) (by simp)
      (Value.power_arisesIn hpower ⟨h.getElem?_of_lookahead hstar, fun hd => ?_⟩)
    exact absurd hd (by decide)
  · rw [meets_located_ok, meets_pure]
    refine ⟨w, rfl, .starred base exponent, ?_, by simpa using h₂, hcloses⟩
    rw [Tree.nesting]
    omega

theorem recognizesExpression_ternary (hinner : RecognizesInner .ternary inner limit depth) :
    Recognizes .ternary .expression (Grammar.ternary.expressionOver inner) limit depth := by
  have haddend := recognizesAddend_ternary (recognizesOperand hinner)
  intro text before r h hopens
  show Meets (do
    let first ← operandOver inner
    repeatWhile (ternaryStep inner) (ternaryStep_moves inner) first) _ _ _
  rw [meets_bind]
  apply meets_ok_mono (haddend text before r h hopens.sum.addend)
  rintro first r₁ ⟨a, ha, h₁, -⟩
  -- Behind a star the whole expression is complete, and the next round stops.
  refine meets_repeatWhile_of_invariant (fun _ r =>
    Reached .ternary .sum .operand text limit depth (limit - depth) before r ∨
      Reached .ternary .expression .expression text limit depth (limit - depth) before r) ?_
    (.inl ⟨.start a, ha, h₁, trivial⟩)
  rintro v r₂ (⟨t, ht, h₂, -⟩ | ⟨t, ht, h₂, hstar, hplus, hminus⟩)
  · rcases r₂.lookahead.sign_or_ne with ⟨s, hs⟩ | ⟨hplus, hminus⟩
    · rw [meets_congr (run_ternaryStep_of_sign s hs)]
      apply meets_ok_mono (meets_applyTo_behind haddend hopens.sum ht h₂ hs)
      rintro _ r₃ ⟨w, rfl, t', ht', h₃, -⟩
      exact .inl ⟨t', ht', h₃, trivial⟩
    rw [meets_congr (run_ternaryStep_of_ne hplus hminus)]
    by_cases hstar : r₂.lookahead = .star
    · apply meets_ok_mono (meets_starStep_behind hinner hopens ht h₂ hstar)
      rintro _ r₃ ⟨w, rfl, hreached⟩
      exact .inr hreached
    · rw [meets_congr (q := pure none) (run_starStep_of_ne hstar), meets_pure]
      exact ⟨.whole t, ht, h₂, hstar, hplus, hminus⟩
  · have hstop : (ternaryStep inner v).run r₂ = (.ok none, r₂) := by
      rw [run_ternaryStep_of_ne hplus hminus, run_starStep_of_ne hstar]
    rw [meets_congr (q := pure none) hstop, meets_pure]
    exact ⟨t, ht, h₂, hstar, hplus, hminus⟩

/-! ## Levels -/

theorem recognizesExpression (hinner : RecognizesInner d inner limit depth) :
    Recognizes d .expression (d.grammar.expressionOver inner) limit depth := by
  cases d with
  | standard =>
    exact recognizesExpression_standard (recognizesChain (recognizesOperand hinner))
  | ternary => exact recognizesExpression_ternary hinner

theorem recognizes_within (d : Dialect) (levels : Nat) :
    ∀ limit depth, limit - depth = levels →
      Recognizes d .expression (d.grammar.expressionOver (d.grammar.within levels)) limit
        depth := by
  induction levels with
  | zero =>
    intro limit depth hlevels
    apply recognizesExpression
    intro text before r h hopens
    rw [meets_deeper_of_le (by rw [h.limit_eq, h.depth_eq]; omega)]
    exact h.overrun hopens.viable
  | succ levels ih =>
    intro limit depth hlevels
    apply recognizesExpression
    intro text before r h hopens
    rw [meets_deeper_of_lt (by rw [h.limit_eq, h.depth_eq]; omega)]
    refine meets_mono (ih limit (depth + 1) (by omega) text before r.enter h.enter hopens) ?_ ?_
    · rintro v r' ⟨t, ht, h', hcloses⟩
      exact ⟨by omega, t, by omega, h'.leave, hcloses⟩
    · intro e r' he
      exact he.leave

theorem recognizes_expression (d : Dialect) (limit depth : Nat) :
    Recognizes d .expression d.grammar.expression limit depth := by
  intro text before r h hopens
  have hwithin := recognizes_within d (limit - depth) limit depth rfl text before r h hopens
  rw [← h.limit_eq, ← h.depth_eq] at hwithin ⊢
  exact hwithin

end Reckon
