import Reckon.Reader

/-!
# Productions

A production reads some of the input and gives a value or fails. It takes the reader it starts
with to the reader it ends with, also when it fails, and it never puts a symbol back. The last
point is what lets productions be repeated: a loop ends if each of its rounds reads something.
-/

namespace Reckon

structure Production (α : Type) where
  run : Reader → Except Failure α × Reader
  unread_le : ∀ r, (run r).2.unread ≤ r.unread

namespace Production

variable {α β : Type}

theorem ext {p q : Production α} (h : ∀ r, p.run r = q.run r) : p = q := by
  obtain ⟨p, hp⟩ := p
  obtain ⟨q, hq⟩ := q
  obtain rfl : p = q := funext h
  rfl

protected def pure (a : α) : Production α := ⟨fun r => (.ok a, r), fun _ => Nat.le_refl _⟩

/-- Runs `p`, then what `f` makes of its value. A failure of `p` ends it. -/
protected def bind (p : Production α) (f : α → Production β) : Production β where
  run r :=
    match p.run r with
    | (.ok a, r') => (f a).run r'
    | (.error e, r') => (.error e, r')
  unread_le r := by
    have hp := p.unread_le r
    rcases h : p.run r with ⟨_ | a, r'⟩ <;> simp only [h] at hp ⊢
    · exact hp
    · exact Nat.le_trans ((f a).unread_le r') hp

instance : Monad Production where
  pure := Production.pure
  bind := Production.bind

@[simp] theorem run_pure (a : α) (r : Reader) : (pure a : Production α).run r = (.ok a, r) := rfl

theorem run_bind (p : Production α) (f : α → Production β) (r : Reader) :
    (p >>= f).run r =
      match p.run r with
      | (.ok a, r') => (f a).run r'
      | (.error e, r') => (.error e, r') := rfl

theorem run_bind_ok {p : Production α} {f : α → Production β} {r r' : Reader} {a : α}
    (h : p.run r = (.ok a, r')) : (p >>= f).run r = (f a).run r' := by
  rw [run_bind, h]

theorem run_bind_error {p : Production α} {f : α → Production β} {r r' : Reader} {e : Failure}
    (h : p.run r = (.error e, r')) : (p >>= f).run r = (.error e, r') := by
  rw [run_bind, h]

instance : LawfulMonad Production := LawfulMonad.mk' Production
  (by
    intro α p
    refine ext fun r => ?_
    show (match p.run r with | (.ok a, r') => _ | (.error e, r') => _) = _
    rcases p.run r with ⟨_ | a, r'⟩ <;> rfl)
  (by intros; rfl)
  (by
    intro α β γ p f g
    refine ext fun r => ?_
    simp only [run_bind]
    rcases p.run r with ⟨_ | a, r'⟩ <;> rfl)

/-! ## Single steps -/

/-- What `f` reads off the reader. -/
def ask (f : Reader → α) : Production α := ⟨fun r => (.ok (f r), r), fun _ => Nat.le_refl _⟩

def lookahead : Production Symbol := ask Reader.lookahead

def position : Production Position := ask Reader.position

def tally : Production Tally := ask Reader.tally

def fail (f : Reader → Failure) : Production α :=
  ⟨fun r => (.error (f r), r), fun _ => Nat.le_refl _⟩

def refuse (expected : Expected) : Production α := fail (Reader.refusal expected)

def located (place : Position) : Except ArithmeticError α → Production α
  | .ok a => pure a
  | .error cause => fail fun _ => .arithmetic cause place

def note (record : Reader → Record) : Production Unit :=
  ⟨fun r => (.ok (), { r with log := r.log.push (record r) }), fun _ => Nat.le_refl _⟩

def prime : Production Unit := ⟨Reader.fetch, Reader.fetch_unread_le⟩

/-- Consumes one symbol, whatever it is. -/
def advance : Production Symbol := ⟨Reader.advance, Reader.advance_unread_le⟩

def require (b : UInt8) : Production Unit := do
  if (← lookahead) = .byte b then
    let _ ← advance
  else
    refuse (.byte b)

/-- Refuses any lookahead that does not end an expression. Consumes nothing. -/
def requireEnd : Production Unit := do
  unless (← lookahead).isTerminator do
    refuse .finish

def overrun : Production α :=
  ⟨fun r => (.error r.overrun.1, r.overrun.2), fun _ => Nat.le_refl _⟩

/-- Runs `p` one level deeper, unless that level is past the limit. -/
def deeper (p : Production α) : Production α where
  run r :=
    if r.limit ≤ r.depth then overrun.run r
    else
      let (outcome, r') := p.run r.enter
      (outcome, r'.leave)
  unread_le r := by
    split
    · exact overrun.unread_le r
    · exact p.unread_le r.enter

/-! ## Repetition -/

/-- If `p` gives a value from `r`, it has consumed something. -/
def MovesFrom (p : Production (Option α)) (r : Reader) : Prop :=
  ∀ a r', p.run r = (.ok (some a), r') → r'.unread < r.unread

def Moves (p : Production (Option α)) : Prop := ∀ r, p.MovesFrom r

def repeatRun (step : α → Production (Option α)) (moves : ∀ a, (step a).Moves) (a : α)
    (r : Reader) : Except Failure α × Reader :=
  match h : (step a).run r with
  | (.ok (some b), r') =>
    have := moves a r b r' h
    repeatRun step moves b r'
  | (.ok none, r') => (.ok a, r')
  | (.error e, r') => (.error e, r')
termination_by r.unread

theorem repeatRun_unread_le (step : α → Production (Option α)) (moves : ∀ a, (step a).Moves)
    (a : α) (r : Reader) : (repeatRun step moves a r).2.unread ≤ r.unread := by
  have hle (a : α) {r : Reader} {o r'} (h : (step a).run r = (o, r')) : r'.unread ≤ r.unread := by
    have := (step a).unread_le r
    rwa [h] at this
  fun_induction repeatRun step moves a r with
  | case1 a r b r' h _ ih => exact Nat.le_trans ih (hle a h)
  | case2 a r r' h => exact hle a h
  | case3 a r e r' h => exact hle a h

/-- Repeats `step` from `a` as long as it gives a next value. -/
def repeatWhile (step : α → Production (Option α)) (moves : ∀ a, (step a).Moves) (a : α) :
    Production α :=
  ⟨repeatRun step moves a, repeatRun_unread_le step moves a⟩

theorem run_repeatWhile (step : α → Production (Option α)) (moves : ∀ a, (step a).Moves) (a : α)
    (r : Reader) :
    (repeatWhile step moves a).run r =
      match (step a).run r with
      | (.ok (some b), r') => (repeatWhile step moves b).run r'
      | (.ok none, r') => (.ok a, r')
      | (.error e, r') => (.error e, r') := by
  show repeatRun step moves a r = _
  rw [repeatRun]
  split <;> next h => simp only [h]; try rfl

/-! ## Which productions move -/

theorem movesFrom_none {r : Reader} : (pure none : Production (Option α)).MovesFrom r := by
  intro a r' h
  simp at h

theorem movesFrom_lookahead {f : Symbol → Production (Option α)} {r : Reader}
    (h : (f r.lookahead).MovesFrom r) : (lookahead >>= f).MovesFrom r := h

theorem movesFrom_position {f : Position → Production (Option α)} {r : Reader}
    (h : (f r.position).MovesFrom r) : (position >>= f).MovesFrom r := h

theorem movesFrom_located {place : Position} {x : Except ArithmeticError β}
    {f : β → Production (Option α)} {r : Reader} (h : ∀ b, (f b).MovesFrom r) :
    (located place x >>= f).MovesFrom r := by
  cases x with
  | ok b => exact h b
  | error e =>
    intro a r' hr
    simp [located, fail, run_bind] at hr

theorem movesFrom_advance {f : Symbol → Production (Option α)} {r : Reader}
    (h : r.lookahead ≠ .finish) : (advance >>= f).MovesFrom r := by
  intro a r' hr
  have hlt := r.advance_unread_lt h
  rcases hs : advance.run r with ⟨_ | b, s⟩ <;> simp only [run_bind, hs] at hr
  · simp at hr
  · have hle := (f b).unread_le s
    rw [hr] at hle
    rw [show r.advance = (.ok b, s) from hs] at hlt
    exact Nat.lt_of_le_of_lt hle hlt

end Production

end Reckon
