import Reckon.Proofs.Production.Limited

/-!
# What a run uses up

A run has only so many symbols to consume: those in front of the first one that ends an
expression. When it gives a value, it has used up as many of them as it has consumed. Every
production consumes at least one, and so does every round of a loop.
-/

namespace Reckon

/-- How many bytes come before the first newline or end of the input. Faults between them are no
symbols. -/
def Source.toGo : Source → Nat
  | [] => 0
  | .byte b :: rest => if b = Byte.newline then 0 else toGo rest + 1
  | .finish :: _ => 0
  | .fault _ :: rest => toGo rest

/-- How many symbols come before the first one that ends an expression, with the one in hand. -/
def Reader.toGo (r : Reader) : Nat :=
  if r.lookahead.isTerminator then 0 else r.source.toGo + 1

theorem Source.toGo_of_next {source rest : Source} {s : Symbol}
    (h : source.next = (.ok s, rest)) :
    source.toGo = if s.isTerminator then 0 else toGo rest + 1 := by
  induction source with
  | nil =>
    obtain ⟨hs, -⟩ := Prod.mk.inj h
    rw [← Except.ok.inj hs]
    rfl
  | cons o source ih =>
    cases o with
    | byte b =>
      obtain ⟨hs, rfl⟩ := Prod.mk.inj h
      rw [← Except.ok.inj hs]
      simp [toGo, Symbol.isTerminator]
    | finish =>
      obtain ⟨hs, -⟩ := Prod.mk.inj h
      rw [← Except.ok.inj hs]
      rfl
    | fault f =>
      rw [Source.next] at h
      split at h
      · exact ih h
      · cases h

/-- On the way from `r` to `s`, `k` symbols were consumed, and there are `k` less to go. -/
structure Reader.Spent (r s : Reader) (k : Nat) : Prop where
  consumed : s.tally.consumed = r.tally.consumed + k
  toGo : s.toGo + k = r.toGo

namespace Reader.Spent

variable {r s t : Reader} {k l : Nat}

theorem refl (r : Reader) : r.Spent r 0 := ⟨rfl, rfl⟩

theorem trans (h : r.Spent s k) (h' : s.Spent t l) : r.Spent t (k + l) := by
  refine ⟨by rw [h'.consumed, h.consumed, Nat.add_assoc], ?_⟩
  have := h.toGo
  have := h'.toGo
  omega

end Reader.Spent

namespace Production

variable {α β : Type}

/-- If `p` gives a value from `r`, it has consumed at least `n` symbols, and none that ends an
expression. -/
def Spends (n : Nat) (p : Production α) (r : Reader) : Prop :=
  ∀ a s, p.run r = (.ok a, s) → ∃ k, n ≤ k ∧ r.Spent s k

namespace Spends

variable {n : Nat} {p : Production α} {r : Reader}

theorem zero (h : Spends n p r) : Spends 0 p r := by
  intro a s hrun
  obtain ⟨k, -, hspent⟩ := h a s hrun
  exact ⟨k, Nat.zero_le k, hspent⟩

theorem of_error {e : Failure} {s : Reader} (h : p.run r = (.error e, s)) : Spends n p r := by
  intro a s' hrun
  cases h.symm.trans hrun

/-- What `p` has consumed, what follows it cannot put back. -/
theorem bind {f : α → Production β} (hp : Spends n p r)
    (hf : ∀ a s, p.run r = (.ok a, s) → Spends 0 (f a) s) : Spends n (p >>= f) r := by
  intro b t hrun
  rcases hrunp : p.run r with ⟨e | a, s⟩
  · exact of_error (run_bind_error hrunp) b t hrun
  · rw [run_bind_ok hrunp] at hrun
    obtain ⟨k, hk, hspent⟩ := hp a s hrunp
    obtain ⟨l, -, hspent'⟩ := hf a s hrunp b t hrun
    exact ⟨k + l, Nat.le_trans hk (Nat.le_add_right k l), hspent.trans hspent'⟩

/-- Where the reader stays as it is. -/
theorem of_same (h : ∀ a s, p.run r = (.ok a, s) → r.Spent s 0) : Spends 0 p r :=
  fun a s hrun => ⟨0, Nat.le_refl 0, h a s hrun⟩

theorem advance (h : r.lookahead.isTerminator = false) : Spends 1 advance r := by
  intro s t hrun
  change r.advance = _ at hrun
  have hsource : r.release.source = r.source := rfl
  unfold Reader.advance Reader.fetch at hrun
  rw [hsource] at hrun
  rcases hnext : r.source.next with ⟨f | x, rest⟩ <;> rw [hnext] at hrun
  · cases hrun
  · obtain ⟨-, rfl⟩ := Prod.mk.inj hrun
    refine ⟨1, Nat.le_refl 1, rfl, ?_⟩
    have htoGo := Source.toGo_of_next hnext
    rw [Reader.toGo, Reader.toGo, h, if_neg Bool.false_ne_true, htoGo]

theorem deeper (h : Spends n p r.enter) : Spends n (deeper p) r := by
  intro a s hrun
  rcases Nat.lt_or_ge r.depth r.limit with hlt | hle
  · rw [run_deeper_of_lt hlt] at hrun
    obtain ⟨ha, rfl⟩ := Prod.mk.inj hrun
    obtain ⟨k, hk, hspent⟩ := h a _ (Prod.ext ha rfl)
    exact ⟨k, hk, hspent.consumed, hspent.toGo⟩
  · exact of_error (run_deeper_of_le hle) a s hrun

theorem simulation : Simulation fun p _ r => Spends 0 p r where
  pure _ r := of_same fun _ _ h => (Prod.mk.inj h).2 ▸ .refl r
  bind := bind
  lookahead r := of_same fun _ _ h => (Prod.mk.inj h).2 ▸ .refl r
  position r := of_same fun _ _ h => (Prod.mk.inj h).2 ▸ .refl r
  tally r := of_same fun _ _ h => (Prod.mk.inj h).2 ▸ .refl r
  refuse _ _ := of_error rfl
  located _ _ r := of_same fun _ _ h => eq_of_run_located h ▸ .refl r
  note _ _ _ := of_same fun _ _ h => (Prod.mk.inj h).2 ▸ ⟨rfl, rfl⟩
  advance _ h := (advance h).zero

/-- What follows a symbol that was consumed may consume more or nothing. -/
theorem behind_advance {f : Symbol → Production α} (h : r.lookahead.isTerminator = false)
    (hf : ∀ s t, Spends 0 (f s) t) : Spends 1 (Production.advance >>= f) r :=
  bind (advance h) fun s t _ => hf s t

theorem bind_lookahead {f : Symbol → Production α} (h : Spends n (f r.lookahead) r) :
    Spends n (lookahead >>= f) r := h

theorem bind_position {f : Position → Production α} (h : Spends n (f r.position) r) :
    Spends n (position >>= f) r := h

end Spends

/-! ## Rounds -/

/-- If `p` gives a next value from `r`, it has consumed at least one symbol. -/
def Proceeds (p : Production (Option α)) (r : Reader) : Prop :=
  ∀ next s, p.run r = (.ok next, s) → ∃ k, (next.isSome → 1 ≤ k) ∧ r.Spent s k

namespace Proceeds

variable {r : Reader}

theorem spends {p : Production (Option α)} (h : Proceeds p r) : Spends 0 p r := by
  intro next s hrun
  obtain ⟨k, -, hspent⟩ := h next s hrun
  exact ⟨k, Nat.zero_le k, hspent⟩

theorem of_spends {p : Production (Option α)} (h : Spends 1 p r) : Proceeds p r := by
  intro next s hrun
  obtain ⟨k, hk, hspent⟩ := h next s hrun
  exact ⟨k, fun _ => hk, hspent⟩

theorem pure_none (r : Reader) : Proceeds (pure none : Production (Option α)) r := by
  intro next s hrun
  obtain ⟨hnext, rfl⟩ := Prod.mk.inj hrun
  rw [← Except.ok.inj hnext]
  exact ⟨0, (fun h => nomatch h), .refl r⟩

theorem bind_lookahead {f : Symbol → Production (Option α)} (h : Proceeds (f r.lookahead) r) :
    Proceeds (lookahead >>= f) r := h

theorem digitStep (start : Position) (v : Value) (r : Reader) :
    Proceeds (digitStep start v) r := by
  apply bind_lookahead
  split
  · exact pure_none r
  · next hdigit =>
    intro next s hrun
    rcases hlonger : (located start (v.appendDigit _)).run r with ⟨e | longer, t⟩
    · rw [run_bind_error hlonger] at hrun
      cases hrun
    · obtain rfl := eq_of_run_located hlonger
      rw [run_bind_ok hlonger] at hrun
      refine of_spends (.behind_advance (Symbol.not_isTerminator_of_digit? hdigit) ?_) next s hrun
      exact fun _ u => Spends.simulation.pure _ u

variable {inner operand addend : Production Value}

theorem applyTo (haddend : ∀ s, Spends 0 addend s) (v : Value)
    (operation : Value → Value → Except ArithmeticError Value)
    (h : r.lookahead.isTerminator = false) : Proceeds (applyTo addend v operation) r := by
  refine of_spends (.bind_position (.behind_advance h fun _ s => ?_))
  exact (haddend s).bind fun w t _ =>
    (Spends.simulation.located _ _ t).bind fun _ u _ => Spends.simulation.pure _ u

theorem sumStep (haddend : ∀ s, Spends 0 addend s) (v : Value) (r : Reader) :
    Proceeds (sumStep addend v) r := by
  apply bind_lookahead
  split
  · next hplus => exact applyTo haddend v _ (by rw [hplus]; rfl)
  split
  · next hminus => exact applyTo haddend v _ (by rw [hminus]; rfl)
  · exact pure_none r

theorem chainStep (hoperand : ∀ s, Spends 0 operand s) (chain : Chain) (r : Reader) :
    Proceeds (chainStep operand chain) r := by
  apply bind_lookahead
  split
  · next hstar =>
    refine of_spends (.bind_position (.behind_advance (by rw [hstar]; rfl) fun _ s => ?_))
    refine (Spends.simulation.require (by decide) s).bind fun _ t _ => ?_
    exact (hoperand t).bind fun _ u _ => Spends.simulation.pure _ u
  · exact pure_none r

theorem starStep (hinner : ∀ s, Spends 0 inner s) (v : Value) (r : Reader) :
    Proceeds (starStep inner v) r := by
  apply bind_lookahead
  split
  · next hstar =>
    refine of_spends (.bind_position (.behind_advance (by rw [hstar]; rfl) fun _ s => ?_))
    refine (Spends.deeper (hinner s.enter)).bind fun _ t _ => ?_
    exact (Spends.simulation.located _ _ t).bind fun _ u _ => Spends.simulation.pure _ u
  · exact pure_none r

theorem ternaryStep (hinner : ∀ s, Spends 0 inner s)
    (hoperand : ∀ s, Spends 0 (operandOver inner) s) (v : Value) (r : Reader) :
    Proceeds (ternaryStep inner v) r := by
  intro next t hrun
  have hsum := sumStep hoperand v r
  rcases hrunSum : (Reckon.sumStep (operandOver inner) v).run r with ⟨e | _ | w, s⟩ <;>
    simp only [Reckon.ternaryStep, run_bind, hrunSum] at hrun
  · cases hrun
  · -- Without a sign the step consumes whatever the star consumes.
    obtain ⟨k, -, hspent⟩ := hsum none s hrunSum
    obtain ⟨l, hl, hspent'⟩ := starStep hinner v s next t hrun
    exact ⟨k + l, fun h => Nat.le_trans (hl h) (Nat.le_add_left l k), hspent.trans hspent'⟩
  · obtain ⟨hnext, rfl⟩ := Prod.mk.inj hrun
    rw [← Except.ok.inj hnext]
    exact hsum (some w) s hrunSum

end Proceeds

/-! ## Productions -/

namespace Spends

section

variable {r : Reader} {inner operand : Production Value}

theorem repeatWhile {step : α → Production (Option α)} {moves : ∀ a, (step a).Moves}
    (hstep : ∀ a s, Proceeds (step a) s) (a : α) (r : Reader) :
    Spends 0 (repeatWhile step moves a) r :=
  @Simulation.repeatWhile _ simulation _ step step moves moves (fun a s => (hstep a s).spends) a r

theorem literal (r : Reader) : Spends 1 literal r := by
  apply bind_position
  apply bind_lookahead
  split
  · exact of_error rfl
  · next hdigit =>
    refine behind_advance (Symbol.not_isTerminator_of_digit? hdigit) fun _ s => ?_
    apply bind_lookahead
    split
    · exact of_error rfl
    · exact simulation.pure _ s
  · next hdigit =>
    refine behind_advance (Symbol.not_isTerminator_of_digit? hdigit) fun _ s => ?_
    refine bind (repeatWhile (Proceeds.digitStep _) _ s) fun v t _ => ?_
    exact bind (simulation.note _ _ t) fun _ u _ => simulation.pure v u

theorem operandOver (hinner : ∀ s, Spends 0 inner s) (r : Reader) :
    Spends 1 (operandOver inner) r := by
  apply bind_lookahead
  split
  · exact literal r
  split
  · next hparen =>
    refine behind_advance (by rw [hparen]; rfl) fun _ s => ?_
    refine bind (deeper (hinner s.enter)) fun v t _ => ?_
    exact bind (simulation.require (by decide) t) fun _ u _ => simulation.pure v u
  · exact of_error rfl

theorem powerChain (hoperand : ∀ s, Spends 1 operand s) (r : Reader) :
    Spends 1 (powerChain operand) r := by
  have hstep := Proceeds.chainStep fun s => (hoperand s).zero
  refine bind (hoperand r) fun first s _ => ?_
  refine bind (repeatWhile hstep _ s) fun chain t _ => ?_
  exact simulation.fold chain.bases chain.last t

theorem addendOver (d : Dialect) (hinner : ∀ s, Spends 0 inner s) (r : Reader) :
    Spends 1 (d.grammar.addendOver inner) r := by
  cases d with
  | standard => exact powerChain (operandOver hinner) r
  | ternary => exact operandOver hinner r

theorem expressionOver (d : Dialect) (hinner : ∀ s, Spends 0 inner s) (r : Reader) :
    Spends 1 (d.grammar.expressionOver inner) r := by
  cases d with
  | standard =>
    have haddend := powerChain (operandOver hinner)
    refine bind (haddend r) fun first s _ => repeatWhile (Proceeds.sumStep ?_) first s
    exact fun t => (haddend t).zero
  | ternary =>
    have hoperand := operandOver hinner
    refine bind (hoperand r) fun first s _ => repeatWhile (Proceeds.ternaryStep hinner ?_) first s
    exact fun t => (hoperand t).zero

end

theorem within (d : Dialect) (levels : Nat) (r : Reader) : Spends 1 (d.grammar.within levels) r := by
  induction levels generalizing r with
  | zero => exact of_error rfl
  | succ levels ih => exact expressionOver d (fun s => (ih s).zero) r

theorem expression (d : Dialect) (r : Reader) : Spends 1 d.grammar.expression r :=
  within d (r.limit - r.depth + 1) r

theorem operand (d : Dialect) (r : Reader) : Spends 1 d.grammar.operand r :=
  operandOver (fun s => (expression d s).zero) r

theorem addend (d : Dialect) (r : Reader) : Spends 1 d.grammar.addend r :=
  addendOver d (fun s => (expression d s).zero) r

end Spends

theorem Proceeds.nextAddend (d : Dialect) (v : Value) (r : Reader) :
    Proceeds (d.grammar.nextAddend v) r :=
  sumStep (fun s => (Spends.addend d s).zero) v r

end Production

end Reckon
