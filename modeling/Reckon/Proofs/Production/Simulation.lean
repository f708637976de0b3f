import Reckon.Dialect

/-!
# Simulations

A relation between two productions at a reader. If it holds of single steps and composes, then it
holds of two expressions that differ only in what they do one level further down. The grammars
consume a symbol only after a look at it, and never one that ends an expression, so nothing has
to be known about a step past the end.
-/

namespace Reckon

namespace Symbol

/-- The symbols that are followed by an expression one level further down. -/
def IsOpening (s : Symbol) : Prop := s = openParen ∨ s = star

theorem IsOpening.not_isTerminator {s : Symbol} (h : s.IsOpening) : s.isTerminator = false := by
  rcases h with rfl | rfl <;> rfl

theorem not_isTerminator_of_digit? {s : Symbol} {n : Nat} (h : s.digit? = some n) :
    s.isTerminator = false := by
  cases s with
  | finish => simp [digit?] at h
  | byte b =>
    have hb : b ≠ Byte.newline := by
      rintro rfl
      simp [show (byte Byte.newline).digit? = none by decide] at h
    simpa [isTerminator] using hb

end Symbol

namespace Production

/-- `R p q r` says something about `p` from the reader `r`, and about `q` from a reader that
belongs to `r`. It holds of single steps and composes. -/
structure Simulation (R : ∀ {α : Type}, Production α → Production α → Reader → Prop) : Prop where
  pure : ∀ {α : Type} (a : α) (r : Reader), R (pure a : Production α) (pure a) r
  /-- Only the values and readers that the first production can end in matter. -/
  bind : ∀ {α β : Type} {p q : Production α} {f g : α → Production β} {r : Reader}, R p q r →
    (∀ a r', p.run r = (.ok a, r') → R (f a) (g a) r') → R (p >>= f) (q >>= g) r
  lookahead : ∀ r : Reader, R lookahead lookahead r
  position : ∀ r : Reader, R position position r
  tally : ∀ r : Reader, R tally tally r
  refuse : ∀ {α : Type} (expected : Expected) (r : Reader),
    R (refuse expected : Production α) (refuse expected) r
  located : ∀ {α : Type} (place : Position) (x : Except ArithmeticError α) (r : Reader),
    R (located place x) (located place x) r
  /-- A literal is the only thing that the productions of a grammar write down themselves. -/
  note : ∀ (value : Value) (start : Position) (r : Reader),
    R (note fun _ => .literal value start) (note fun _ => .literal value start) r
  advance : ∀ r : Reader, r.lookahead.isTerminator = false → R advance advance r

theorem eq_of_run_lookahead {r r' : Reader} {s : Symbol} (h : lookahead.run r = (.ok s, r')) :
    s = r.lookahead ∧ r' = r := by
  obtain ⟨hs, hr⟩ := Prod.mk.inj h
  exact ⟨(Except.ok.inj hs).symm, hr.symm⟩

theorem eq_of_run_position {r r' : Reader} {place : Position}
    (h : position.run r = (.ok place, r')) : place = r.position ∧ r' = r := by
  obtain ⟨hplace, hr⟩ := Prod.mk.inj h
  exact ⟨(Except.ok.inj hplace).symm, hr.symm⟩

theorem eq_of_run_located {α : Type} {place : Position} {x : Except ArithmeticError α} {a : α}
    {r r' : Reader} (h : (located place x).run r = (.ok a, r')) : r' = r := by
  cases x with
  | ok a => exact (congrArg Prod.snd h).symm
  | error cause => simp [located, fail] at h

/-- A loop is its first round and then the rest of the loop. -/
theorem repeatWhile_eq_bind {α : Type} (step : α → Production (Option α))
    (moves : ∀ a, (step a).Moves) (a : α) :
    repeatWhile step moves a = step a >>= fun next =>
      match next with
      | some b => repeatWhile step moves b
      | none => pure a := by
  refine ext fun r => ?_
  rw [run_repeatWhile, run_bind]
  rcases (step a).run r with ⟨e | _ | b, r'⟩ <;> rfl

/-! ## Equal runs -/

theorem unread_le_of_run {α : Type} {p : Production α} {r s : Reader} {o : Except Failure α}
    (h : p.run r = (o, s)) : s.unread ≤ r.unread := by
  have hle := p.unread_le r
  rwa [h] at hle

theorem unread_lt_of_run_advance {r s : Reader} {o : Except Failure Symbol}
    (hr : r.lookahead ≠ .finish) (h : advance.run r = (o, s)) : s.unread < r.unread := by
  have hlt := r.advance_unread_lt hr
  rwa [show r.advance = (o, s) from h] at hlt

theorem run_bind_congr {α β : Type} {p q : Production α} {f g : α → Production β} {r : Reader}
    (hp : p.run r = q.run r) (hf : ∀ a s, p.run r = (.ok a, s) → (f a).run s = (g a).run s) :
    (p >>= f).run r = (q >>= g).run r := by
  rcases hrun : p.run r with ⟨e | a, s⟩
  · rw [run_bind_error hrun, run_bind_error (hp.symm.trans hrun)]
  · rw [run_bind_ok hrun, run_bind_ok (hp.symm.trans hrun)]
    exact hf a s hrun

namespace Simulation

variable {R : ∀ {α : Type}, Production α → Production α → Reader → Prop} (hR : Simulation @R)
include hR

/-! ## Steps and loops -/

theorem bind_lookahead {α : Type} {f g : Symbol → Production α} {r : Reader}
    (h : R (f r.lookahead) (g r.lookahead) r) :
    R (Production.lookahead >>= f) (Production.lookahead >>= g) r := by
  refine hR.bind (hR.lookahead r) fun s r' hrun => ?_
  obtain ⟨rfl, rfl⟩ := eq_of_run_lookahead hrun
  exact h

theorem bind_position {α : Type} {f g : Position → Production α} {r : Reader}
    (h : R (f r.position) (g r.position) r) :
    R (Production.position >>= f) (Production.position >>= g) r := by
  refine hR.bind (hR.position r) fun place r' hrun => ?_
  obtain ⟨rfl, rfl⟩ := eq_of_run_position hrun
  exact h

theorem repeatWhile {α : Type} {step step' : α → Production (Option α)}
    {moves : ∀ a, (step a).Moves} {moves' : ∀ a, (step' a).Moves}
    (hstep : ∀ a r, R (step a) (step' a) r) (a : α) (r : Reader) :
    R (Production.repeatWhile step moves a) (Production.repeatWhile step' moves' a) r := by
  induction hn : r.unread using Nat.strongRecOn generalizing a r with
  | ind n ih =>
    rw [repeatWhile_eq_bind step, repeatWhile_eq_bind step']
    refine hR.bind (hstep a r) fun next r' hrun => ?_
    cases next with
    | none => exact hR.pure a r'
    | some b => exact ih _ (hn ▸ moves a r b r' hrun) b r' rfl

theorem require {b : UInt8} (hb : b ≠ Byte.newline) (r : Reader) :
    R (Production.require b) (Production.require b) r := by
  apply hR.bind_lookahead
  split
  · next h =>
    refine hR.bind (hR.advance r ?_) fun _ r' _ => hR.pure _ r'
    simpa [h, Symbol.isTerminator] using hb
  · exact hR.refuse _ r

theorem requireEnd (r : Reader) : R Production.requireEnd Production.requireEnd r := by
  apply hR.bind_lookahead
  split
  · exact hR.pure _ r
  · exact hR.refuse _ r

/-! ## Literals -/

theorem digitStep (start : Position) (v : Value) (r : Reader) :
    R (Reckon.digitStep start v) (Reckon.digitStep start v) r := by
  apply hR.bind_lookahead
  split
  · exact hR.pure _ r
  · next n hdigit =>
    refine hR.bind (hR.located _ _ r) fun longer r' hrun => ?_
    obtain rfl := eq_of_run_located hrun
    refine hR.bind (hR.advance _ ?_) fun _ r' _ => hR.pure _ r'
    exact Symbol.not_isTerminator_of_digit? hdigit

theorem literal (r : Reader) : R Reckon.literal Reckon.literal r := by
  apply hR.bind_position
  apply hR.bind_lookahead
  split
  · exact hR.refuse _ r
  · next hdigit =>
    refine hR.bind (hR.advance r (Symbol.not_isTerminator_of_digit? hdigit)) fun _ r' _ => ?_
    apply hR.bind_lookahead
    split
    · exact hR.refuse _ r'
    · exact hR.pure _ r'
  · next n hdigit =>
    refine hR.bind (hR.advance r (Symbol.not_isTerminator_of_digit? hdigit)) fun _ r' _ => ?_
    refine hR.bind (hR.repeatWhile (hR.digitStep _) _ r') fun v r'' _ => ?_
    exact hR.bind (hR.note _ _ r'') fun _ r₃ _ => hR.pure _ r₃

/-! ## Productions over related inner expressions -/

variable {inner inner' operand operand' addend addend' : Production Value}

theorem operandOver
    (h : ∀ r : Reader, r.lookahead.IsOpening →
      R (Production.advance >>= fun _ => deeper inner)
        (Production.advance >>= fun _ => deeper inner') r) (r : Reader) :
    R (Reckon.operandOver inner) (Reckon.operandOver inner') r := by
  apply hR.bind_lookahead
  split
  · exact hR.literal r
  split
  · next hparen =>
    rw [← bind_assoc Production.advance, ← bind_assoc Production.advance]
    refine hR.bind (h r (.inl hparen)) fun v r' _ => ?_
    exact hR.bind (hR.require (by decide) r') fun _ r'' _ => hR.pure _ r''
  · exact hR.refuse _ r

theorem applyTo (h : ∀ r, R addend addend' r) (v : Value)
    (operation : Value → Value → Except ArithmeticError Value) (r : Reader)
    (hr : r.lookahead.isTerminator = false) :
    R (Reckon.applyTo addend v operation) (Reckon.applyTo addend' v operation) r := by
  apply hR.bind_position
  refine hR.bind (hR.advance r hr) fun _ r₁ _ => hR.bind (h r₁) fun w r₂ _ => ?_
  exact hR.bind (hR.located _ _ r₂) fun _ r₃ _ => hR.pure _ r₃

theorem sumStep (h : ∀ r, R addend addend' r) (v : Value) (r : Reader) :
    R (Reckon.sumStep addend v) (Reckon.sumStep addend' v) r := by
  apply hR.bind_lookahead
  split
  · next hplus => exact hR.applyTo h v _ r (by rw [hplus]; rfl)
  split
  · next hminus => exact hR.applyTo h v _ r (by rw [hminus]; rfl)
  · exact hR.pure _ r

theorem sum (h : ∀ r, R addend addend' r) (r : Reader) :
    R (Reckon.sum addend) (Reckon.sum addend') r :=
  hR.bind (h r) fun first r' _ => hR.repeatWhile (hR.sumStep h) first r'

theorem chainStep (h : ∀ r, R operand operand' r) (chain : Chain) (r : Reader) :
    R (Reckon.chainStep operand chain) (Reckon.chainStep operand' chain) r := by
  apply hR.bind_lookahead
  split
  · next hstar =>
    apply hR.bind_position
    refine hR.bind (hR.advance r (by rw [hstar]; rfl)) fun _ r₁ _ => ?_
    refine hR.bind (hR.require (by decide) r₁) fun _ r₂ _ => ?_
    exact hR.bind (h r₂) fun _ r₃ _ => hR.pure _ r₃
  · exact hR.pure _ r

theorem fold (bases : List (Value × Position)) (v : Value) (r : Reader) :
    R (Chain.fold ⟨bases, v⟩) (Chain.fold ⟨bases, v⟩) r := by
  induction bases generalizing v r with
  | nil => exact hR.pure v r
  | cons base bases ih =>
    unfold Chain.fold
    rw [List.foldlM_cons]
    exact hR.bind (hR.located _ _ r) fun w r' _ => ih w r'

theorem powerChain (h : ∀ r, R operand operand' r) (r : Reader) :
    R (Reckon.powerChain operand) (Reckon.powerChain operand') r :=
  hR.bind (h r) fun _ r₁ _ => hR.bind (hR.repeatWhile (hR.chainStep h) _ r₁) fun chain r₂ _ =>
    hR.fold chain.bases chain.last r₂

section

variable (h : ∀ r : Reader, r.lookahead.IsOpening →
  R (Production.advance >>= fun _ => deeper inner)
    (Production.advance >>= fun _ => deeper inner') r)
include h

theorem starStep (v : Value) (r : Reader) :
    R (Reckon.starStep inner v) (Reckon.starStep inner' v) r := by
  apply hR.bind_lookahead
  split
  · next hstar =>
    apply hR.bind_position
    rw [← bind_assoc Production.advance, ← bind_assoc Production.advance]
    refine hR.bind (h r (.inr hstar)) fun x r₁ _ => ?_
    exact hR.bind (hR.located _ _ r₁) fun _ r₂ _ => hR.pure _ r₂
  · exact hR.pure _ r

theorem ternaryStep (v : Value) (r : Reader) :
    R (Reckon.ternaryStep inner v) (Reckon.ternaryStep inner' v) r := by
  refine hR.bind (hR.sumStep (hR.operandOver h) v r) fun next r' _ => ?_
  cases next with
  | some w => exact hR.pure _ r'
  | none => exact hR.starStep h v r'

theorem addendOver (d : Dialect) (r : Reader) :
    R (d.grammar.addendOver inner) (d.grammar.addendOver inner') r := by
  cases d with
  | standard => exact hR.powerChain (hR.operandOver h) r
  | ternary => exact hR.operandOver h r

theorem expressionOver (d : Dialect) (r : Reader) :
    R (d.grammar.expressionOver inner) (d.grammar.expressionOver inner') r := by
  cases d with
  | standard => exact hR.sum (hR.powerChain (hR.operandOver h)) r
  | ternary =>
    exact hR.bind (hR.operandOver h r) fun first r' _ => hR.repeatWhile (hR.ternaryStep h) first r'

end

/-- Behind the expression, the rest of an evaluation looks only at the symbol in hand. -/
theorem whole (d : Dialect)
    (hnote : ∀ (record : Record) (r : Reader),
      R (Production.note fun _ => record) (Production.note fun _ => record) r)
    {r : Reader} (h : R d.grammar.expression d.grammar.expression r) :
    R d.grammar.whole d.grammar.whole r :=
  hR.bind h fun _ r₁ _ => hR.bind (hR.requireEnd r₁) fun _ r₂ _ =>
    hR.bind (hR.tally r₂) fun _ r₃ _ => hR.bind (hnote _ r₃) fun _ r₄ _ => hR.pure _ r₄

end Simulation

end Production

end Reckon
