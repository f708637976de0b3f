import Reckon.Proofs.Production.Limited

/-!
# One run in two settings

What a run does depends on the line in front of it and on how many levels it may go down. In
another setting the reader stands further right, further down and with more counted already, and
the line may end with another symbol. There the run does the same, and says the same up to that
difference.
-/

namespace Reckon

/-! ## Symbols that end a line -/

namespace Symbol

/-- With `stop` for the end of the input. -/
def endedBy (s stop : Symbol) : Symbol :=
  match s with
  | .byte b => .byte b
  | .finish => stop

@[simp]
theorem endedBy_finish (s : Symbol) : s.endedBy .finish = s := by
  cases s <;> rfl

variable {s stop : Symbol} (h : stop.isTerminator = true)
include h

theorem digit?_endedBy : (s.endedBy stop).digit? = s.digit? := by
  cases s with
  | byte b => rfl
  | finish =>
    show stop.digit? = none
    rcases hdigit : stop.digit? with _ | n
    · rfl
    · exact absurd (h.symm.trans (not_isTerminator_of_digit? hdigit)) (by decide)

theorem isTerminator_endedBy : (s.endedBy stop).isTerminator = s.isTerminator := by
  cases s with
  | byte b => rfl
  | finish => exact h

theorem endedBy_eq_byte_iff {b : UInt8} (hb : b ≠ Byte.newline) :
    s.endedBy stop = .byte b ↔ s = .byte b := by
  cases s with
  | byte c => rfl
  | finish =>
    have hstop : stop ≠ .byte b := by
      rintro rfl
      exact hb (by simpa [isTerminator] using h)
    simpa [endedBy] using hstop

end Symbol

/-! ## Places in another setting -/

/-- As far to the right of `start` as `p` is from the beginning of its line. -/
def Position.beyond (start p : Position) : Position := ⟨start.line, start.column + p.column⟩

theorem Position.beyond_past {s : Symbol} (hs : s.isTerminator = false) (start p : Position) :
    (start.beyond p).past s = start.beyond (p.past s) := by
  cases s with
  | finish => exact absurd hs (by decide)
  | byte b =>
    have hb : b ≠ Byte.newline := by simpa [Symbol.isTerminator] using hs
    simp only [past, beyond, if_neg hb, Nat.add_assoc]

namespace Failure

/-- The same failure of a run that began at `start` under `limit`. -/
def moved (start : Position) (limit : Nat) : Failure → Failure
  | refused refusal => refused { refusal with position := start.beyond refusal.position }
  | arithmetic cause place => arithmetic cause (start.beyond place)
  | tooDeep _ place => tooDeep limit (start.beyond place)
  | unreadable fault => unreadable fault

/-- The same failure of a run whose line ends with `stop`. -/
def endedBy (stop : Symbol) : Failure → Failure
  | refused refusal => refused { refusal with found := refusal.found.endedBy stop }
  | arithmetic cause place => arithmetic cause place
  | tooDeep limit place => tooDeep limit place
  | unreadable fault => unreadable fault

theorem endedBy_finish (e : Failure) : e.endedBy .finish = e := by
  cases e with
  | refused refusal => rw [endedBy, Symbol.endedBy_finish]
  | arithmetic cause place => rfl
  | tooDeep limit place => rfl
  | unreadable fault => rfl

end Failure

def Chain.moved (start : Position) (chain : Chain) : Chain :=
  ⟨chain.bases.map fun base => (base.1, start.beyond base.2), chain.last⟩

/-! ## Settings -/

/-- Where a run takes place instead of at the beginning of the input. -/
structure Setting where
  start : Reader
  /-- What ends the line instead of the end of the input. -/
  stop : Symbol
  stop_isTerminator : stop.isTerminator = true
  /-- With this symbol in hand, the second source goes on as the first one does. -/
  GoesOn : Symbol → Source → Source → Prop
  next : ∀ {s : Symbol} {source source' : Source}, GoesOn s source source' →
    s.isTerminator = false →
      (∃ x rest rest', source.next = (.ok x, rest) ∧ source'.next = (.ok (x.endedBy stop), rest') ∧
          GoesOn x rest rest') ∨
        ∃ f rest rest', source.next = (.error f, rest) ∧ source'.next = (.error f, rest') ∧
          GoesOn s rest rest'

namespace Setting

variable (c : Setting)

def failure (e : Failure) : Failure := (e.endedBy c.stop).moved c.start.position c.start.limit

/-- `r` is as far from the start of the setting as `s` is from the beginning of the input. -/
structure Alike (s r : Reader) : Prop where
  lookahead : r.lookahead = s.lookahead.endedBy c.stop
  source : c.GoesOn s.lookahead s.source r.source
  position : r.position = c.start.position.beyond s.position
  depth : r.depth = c.start.depth + s.depth
  limit : r.limit = c.start.limit
  room : s.limit = c.start.limit - c.start.depth
  consumed : r.tally.consumed = c.start.tally.consumed + s.tally.consumed
  /-- The symbol in hand at the beginning is read twice. -/
  reads : r.tally.reads + 1 = c.start.tally.reads + s.tally.reads
  deepest : r.tally.deepest =
    if s.tally.deepest = 0 then c.start.tally.deepest
    else max c.start.tally.deepest (c.start.depth + s.tally.deepest)

namespace Alike

variable {c} {s r : Reader} (h : c.Alike s r)
include h

theorem log (first second : Log) :
    c.Alike { s with log := first } { r with log := second } :=
  ⟨h.lookahead, h.source, h.position, h.depth, h.limit, h.room, h.consumed, h.reads, h.deepest⟩

theorem limit_le_depth_iff : r.limit ≤ r.depth ↔ s.limit ≤ s.depth := by
  rw [h.limit, h.depth, h.room]
  omega

theorem levels : r.limit - r.depth = s.limit - s.depth := by
  rw [h.limit, h.depth, h.room]
  omega

theorem enter : c.Alike s.enter r.enter := by
  refine ⟨h.lookahead, h.source, h.position, ?_, h.limit, h.room, h.consumed, h.reads, ?_⟩
  · exact (congrArg (· + 1) h.depth).trans (Nat.add_assoc _ _ 1)
  · have hdepth := h.depth
    have hdeepest := h.deepest
    have hne : max s.tally.deepest (s.depth + 1) ≠ 0 := by omega
    refine Eq.trans ?_ (if_neg hne).symm
    show max r.tally.deepest (r.depth + 1) = max _ (_ + max s.tally.deepest (s.depth + 1))
    split at hdeepest <;> omega

theorem leave (hs : 0 < s.depth) : c.Alike s.leave r.leave := by
  refine ⟨h.lookahead, h.source, h.position, ?_, h.limit, h.room, h.consumed, h.reads, h.deepest⟩
  have hdepth := h.depth
  show r.depth - 1 = c.start.depth + (s.depth - 1)
  omega

theorem lookahead_eq (hs : s.lookahead.isTerminator = false) : r.lookahead = s.lookahead := by
  rw [h.lookahead]
  cases hlook : s.lookahead with
  | byte b => rfl
  | finish => exact absurd (hlook ▸ hs) (by decide)

theorem release (hs : s.lookahead.isTerminator = false) : c.Alike s.release r.release := by
  refine ⟨h.lookahead, h.source, ?_, h.depth, h.limit, h.room, ?_, h.reads, h.deepest⟩
  · show r.position.past r.lookahead = c.start.position.beyond (s.position.past s.lookahead)
    rw [h.position, h.lookahead_eq hs, Position.beyond_past hs]
  · exact (congrArg (· + 1) h.consumed).trans (Nat.add_assoc _ _ 1)

theorem refusal (expected : Expected) : r.refusal expected = c.failure (s.refusal expected) := by
  rw [Reader.refusal, h.lookahead, h.position]
  rfl

theorem overrun : r.overrun.1 = c.failure s.overrun.1 := by
  rw [Reader.overrun, h.limit, h.position]
  rfl

end Alike

/-! ## Runs -/

/-- In `c`, `q` ends as `p` ends, with `f a` instead of a value `a`. -/
def Carries {α : Type} (f : α → α) (p q : Production α) (s r : Reader) : Prop :=
  c.Alike s r → (q.run r).1 = ((p.run s).1.map f).mapError c.failure ∧
    c.Alike (p.run s).2 (q.run r).2

namespace Carries

open Production

variable {c} {α β : Type} {f : α → α} {p q : Production α} {s r : Reader}

theorem pure (a : α) : c.Carries f (pure a) (pure (f a)) s r := fun h => ⟨rfl, h⟩

theorem bind {f' : β → β} {g g' : α → Production β} (hp : c.Carries f p q s r)
    (hg : ∀ a s' r', p.run s = (.ok a, s') → c.Carries f' (g a) (g' (f a)) s' r') :
    c.Carries f' (p >>= g) (q >>= g') s r := by
  intro h
  obtain ⟨houtcome, halike⟩ := hp h
  rcases hrun : p.run s with ⟨e | a, s'⟩ <;> rw [hrun] at houtcome halike
  · rw [run_bind_error hrun, run_bind_error (Prod.ext houtcome rfl)]
    exact ⟨rfl, halike⟩
  · rw [run_bind_ok hrun, run_bind_ok (Prod.ext houtcome rfl)]
    exact hg a s' _ hrun halike

theorem bind_lookahead {g g' : Symbol → Production α}
    (h : c.Carries f (g s.lookahead) (g' (s.lookahead.endedBy c.stop)) s r) :
    c.Carries f (lookahead >>= g) (lookahead >>= g') s r := by
  intro hsr
  rw [run_bind_lookahead, run_bind_lookahead, hsr.lookahead]
  exact h hsr

theorem bind_position {g g' : Position → Production α}
    (h : c.Carries f (g s.position) (g' (c.start.position.beyond s.position)) s r) :
    c.Carries f (position >>= g) (position >>= g') s r := by
  intro hsr
  rw [run_bind_position, run_bind_position, hsr.position]
  exact h hsr

theorem refuse (expected : Expected) :
    c.Carries f (refuse expected) (Production.refuse expected) s r :=
  fun h => ⟨congrArg Except.error (h.refusal expected), h⟩

theorem located (place : Position) (x : Except ArithmeticError α) :
    c.Carries id (located place x) (Production.located (c.start.position.beyond place) x) s r := by
  intro h
  cases x <;> exact ⟨rfl, h⟩

theorem note (first second : Record) :
    c.Carries id (note fun _ => first) (Production.note fun _ => second) s r :=
  fun h => ⟨rfl, h.log _ _⟩

theorem advance (hs : s.lookahead.isTerminator = false) :
    c.Carries id advance Production.advance s r := by
  intro h
  have hlookahead := h.lookahead_eq hs
  obtain ⟨-, -, hposition, hdepth, hlimit, hroom, hconsumed, hreads, hdeepest⟩ := h.release hs
  show r.advance.1 = (s.advance.1.map id).mapError c.failure ∧ c.Alike s.advance.2 r.advance.2
  unfold Reader.advance Reader.fetch
  rcases c.next h.source hs with ⟨x, rest, rest', hnext, hnext', hgoes⟩ |
    ⟨fault, rest, rest', hnext, hnext', hgoes⟩
  · rw [show s.release.source.next = _ from hnext, show r.release.source.next = _ from hnext']
    refine ⟨congrArg Except.ok hlookahead, rfl, hgoes, hposition, hdepth, hlimit, hroom, hconsumed,
      ?_, hdeepest⟩
    exact (congrArg (· + 1) hreads).trans (Nat.add_assoc _ _ 1)
  · rw [show s.release.source.next = _ from hnext, show r.release.source.next = _ from hnext']
    exact ⟨rfl, h.lookahead, hgoes, hposition, hdepth, hlimit, hroom, hconsumed, hreads, hdeepest⟩

theorem deeper (hkeeps : Keeps p s.enter) (h : c.Carries f p q s.enter r.enter) :
    c.Carries f (deeper p) (Production.deeper q) s r := by
  intro hsr
  rcases Nat.lt_or_ge s.depth s.limit with hlt | hle
  · have hlt' : r.depth < r.limit := Nat.lt_of_not_le fun hle =>
      absurd (hsr.limit_le_depth_iff.mp hle) (Nat.not_le.mpr hlt)
    obtain ⟨houtcome, halike⟩ := h hsr.enter
    rw [run_deeper_of_lt hlt, run_deeper_of_lt hlt']
    exact ⟨houtcome, halike.leave (by rw [hkeeps.depth]; exact Nat.succ_pos _)⟩
  · rw [run_deeper_of_le hle, run_deeper_of_le (hsr.limit_le_depth_iff.mpr hle)]
    exact ⟨congrArg Except.error hsr.overrun, hsr.log _ _⟩

/-- Both runs take the same branch. -/
theorem branch {P P' : Prop} [Decidable P] [Decidable P'] {p' q' : Production α} (hiff : P' ↔ P)
    (hthen : P → c.Carries f p q s r) (helse : ¬ P → c.Carries f p' q' s r) :
    c.Carries f (if P then p else p') (if P' then q else q') s r := by
  by_cases hP : P
  · rw [if_pos hP, if_pos (hiff.mpr hP)]
    exact hthen hP
  · rw [if_neg hP, if_neg (mt hiff.mp hP)]
    exact helse hP

theorem repeatWhile {step step' : α → Production (Option α)} {moves : ∀ a, (step a).Moves}
    {moves' : ∀ a, (step' a).Moves}
    (hstep : ∀ a s r, c.Carries (Option.map f) (step a) (step' (f a)) s r) (a : α) (s r : Reader) :
    c.Carries f (repeatWhile step moves a) (Production.repeatWhile step' moves' (f a)) s r := by
  induction hn : s.unread using Nat.strongRecOn generalizing a s r with
  | ind n ih =>
    rw [repeatWhile_eq_bind step, repeatWhile_eq_bind step']
    refine bind (hstep a s r) fun next s' r' hrun => ?_
    cases next with
    | none => exact pure a
    | some b => exact ih _ (hn ▸ moves a s b s' hrun) b s' r' rfl

end Carries

/-! ## Productions -/

section

open Carries Production

variable {c} {s r : Reader}

theorem endedBy_eq_byte_iff {x : Symbol} {b : UInt8} (hb : b ≠ Byte.newline) :
    x.endedBy c.stop = .byte b ↔ x = .byte b := Symbol.endedBy_eq_byte_iff c.stop_isTerminator hb

theorem digit?_endedBy (x : Symbol) : (x.endedBy c.stop).digit? = x.digit? :=
  Symbol.digit?_endedBy c.stop_isTerminator

theorem isDigit_endedBy_iff (x : Symbol) :
    (x.endedBy c.stop).isDigit = true ↔ x.isDigit = true := by
  rw [Symbol.isDigit, digit?_endedBy, Symbol.isDigit]

theorem carries_require {b : UInt8} (hb : b ≠ Byte.newline) :
    c.Carries id (require b) (require b) s r := by
  apply bind_lookahead
  refine branch (endedBy_eq_byte_iff hb) (fun hlook => ?_) fun _ => refuse _
  have hs : s.lookahead.isTerminator = false := by simpa [hlook, Symbol.isTerminator] using hb
  exact bind (advance hs) fun _ s' r' _ => pure ()

theorem carries_requireEnd : c.Carries id requireEnd requireEnd s r := by
  apply bind_lookahead
  have hiff := Symbol.isTerminator_endedBy c.stop_isTerminator (s := s.lookahead)
  exact branch (by rw [hiff]) (fun _ => pure ()) fun _ => refuse _

theorem carries_digitStep (start : Position) (v : Value) :
    c.Carries (Option.map id) (digitStep start v)
      (digitStep (c.start.position.beyond start) v) s r := by
  apply bind_lookahead
  rw [digit?_endedBy]
  rcases hdigit : s.lookahead.digit? with _ | n
  · exact pure none
  · refine bind (located start _) fun longer s' r' hrun => ?_
    obtain rfl := eq_of_run_located hrun
    refine bind (advance ?_) fun _ s'' r'' _ => pure (some longer)
    exact Symbol.not_isTerminator_of_digit? hdigit

theorem carries_literal : c.Carries id literal literal s r := by
  apply bind_position
  apply bind_lookahead
  rw [digit?_endedBy]
  rcases hdigit : s.lookahead.digit? with _ | _ | n
  · exact refuse _
  · refine bind (advance (Symbol.not_isTerminator_of_digit? hdigit)) fun _ s' r' _ => ?_
    apply bind_lookahead
    exact branch (isDigit_endedBy_iff _) (fun _ => refuse _) fun _ => pure 0
  · refine bind (advance (Symbol.not_isTerminator_of_digit? hdigit)) fun _ s' r' _ => ?_
    refine bind (repeatWhile (fun v s r => carries_digitStep _ v) _ s' r') fun v s'' r'' _ => ?_
    exact bind (note _ _) fun _ _ _ _ => pure v

/-! ## Productions over an inner expression -/

variable {inner operand addend : Production Value}

theorem carries_applyTo (h : ∀ s r, c.Carries id addend addend s r) (v : Value)
    (operation : Value → Value → Except ArithmeticError Value)
    (hs : s.lookahead.isTerminator = false) :
    c.Carries (Option.map id) (applyTo addend v operation) (applyTo addend v operation) s r := by
  apply bind_position
  refine bind (advance hs) fun _ s₁ r₁ _ => bind (h s₁ r₁) fun w s₂ r₂ _ => ?_
  exact bind (located _ _) fun u _ _ _ => pure (some u)

theorem carries_sumStep (h : ∀ s r, c.Carries id addend addend s r) (v : Value) (s r : Reader) :
    c.Carries (Option.map id) (sumStep addend v) (sumStep addend v) s r := by
  apply bind_lookahead
  refine branch (endedBy_eq_byte_iff (by decide)) (fun hplus => ?_) fun _ => ?_
  · exact carries_applyTo h v _ (by rw [hplus]; rfl)
  refine branch (endedBy_eq_byte_iff (by decide)) (fun hminus => ?_) fun _ => pure none
  exact carries_applyTo h v _ (by rw [hminus]; rfl)

theorem carries_sum (h : ∀ s r, c.Carries id addend addend s r) (s r : Reader) :
    c.Carries id (sum addend) (sum addend) s r :=
  bind (h s r) fun first s' r' _ => repeatWhile (carries_sumStep h) first s' r'

theorem carries_chainStep (h : ∀ s r, c.Carries id operand operand s r) (chain : Chain)
    (s r : Reader) :
    c.Carries (Option.map (Chain.moved c.start.position)) (chainStep operand chain)
      (chainStep operand (chain.moved c.start.position)) s r := by
  apply bind_lookahead
  refine branch (endedBy_eq_byte_iff (by decide)) (fun hstar => ?_) fun _ => pure none
  apply bind_position
  refine bind (advance (by rw [hstar]; rfl)) fun _ s₁ r₁ _ => ?_
  refine bind (carries_require (by decide)) fun _ s₂ r₂ _ => bind (h s₂ r₂) fun next _ _ _ => ?_
  exact pure (some _)

theorem carries_fold (bases : List (Value × Position)) (v : Value) (s r : Reader) :
    c.Carries id (Chain.fold ⟨bases, v⟩)
      (Chain.fold ((Chain.mk bases v).moved c.start.position)) s r := by
  induction bases generalizing v s r with
  | nil => exact pure v
  | cons base bases ih =>
    unfold Chain.fold Chain.moved
    rw [List.map_cons, List.foldlM_cons, List.foldlM_cons]
    exact bind (located _ _) fun w s' r' _ => ih w s' r'

theorem carries_powerChain (h : ∀ s r, c.Carries id operand operand s r) (s r : Reader) :
    c.Carries id (powerChain operand) (powerChain operand) s r :=
  bind (h s r) fun first s₁ r₁ _ =>
    bind (repeatWhile (carries_chainStep h) ⟨[], first⟩ s₁ r₁) fun chain s₂ r₂ _ =>
      carries_fold chain.bases chain.last s₂ r₂

section

variable (hkeeps : ∀ s, Keeps inner s) (h : ∀ s r, c.Carries id inner inner s r)
include hkeeps h

theorem carries_operandOver (s r : Reader) :
    c.Carries id (operandOver inner) (operandOver inner) s r := by
  apply bind_lookahead
  refine branch (isDigit_endedBy_iff _) (fun _ => carries_literal) fun _ => ?_
  refine branch (endedBy_eq_byte_iff (by decide)) (fun hparen => ?_) fun _ => refuse _
  refine bind (advance (by rw [hparen]; rfl)) fun _ s₁ r₁ _ => ?_
  refine bind (deeper (hkeeps s₁.enter) (h s₁.enter r₁.enter)) fun v s₂ r₂ _ => ?_
  exact bind (carries_require (by decide)) fun _ _ _ _ => pure v

theorem carries_starStep (v : Value) (s r : Reader) :
    c.Carries (Option.map id) (starStep inner v) (starStep inner v) s r := by
  apply bind_lookahead
  refine branch (endedBy_eq_byte_iff (by decide)) (fun hstar => ?_) fun _ => pure none
  apply bind_position
  refine bind (advance (by rw [hstar]; rfl)) fun _ s₁ r₁ _ => ?_
  refine bind (deeper (hkeeps s₁.enter) (h s₁.enter r₁.enter)) fun exponent s₂ r₂ _ => ?_
  exact bind (located _ _) fun w _ _ _ => pure (some w)

theorem carries_ternaryStep (v : Value) (s r : Reader) :
    c.Carries (Option.map id) (ternaryStep inner v) (ternaryStep inner v) s r := by
  refine bind (carries_sumStep (carries_operandOver hkeeps h) v s r) fun next s' r' _ => ?_
  cases next with
  | some w => exact pure (some w)
  | none => exact carries_starStep hkeeps h v s' r'

theorem carries_addendOver (d : Dialect) (s r : Reader) :
    c.Carries id (d.grammar.addendOver inner) (d.grammar.addendOver inner) s r := by
  cases d with
  | standard => exact carries_powerChain (carries_operandOver hkeeps h) s r
  | ternary => exact carries_operandOver hkeeps h s r

theorem carries_expressionOver (d : Dialect) (s r : Reader) :
    c.Carries id (d.grammar.expressionOver inner) (d.grammar.expressionOver inner) s r := by
  cases d with
  | standard => exact carries_sum (carries_powerChain (carries_operandOver hkeeps h)) s r
  | ternary =>
    exact bind (carries_operandOver hkeeps h s r) fun first s' r' _ =>
      repeatWhile (carries_ternaryStep hkeeps h) first s' r'

end

/-! ## Whole grammars -/

variable (d : Dialect)

theorem carries_within (levels : Nat) (s r : Reader) :
    c.Carries id (d.grammar.within levels) (d.grammar.within levels) s r := by
  induction levels generalizing s r with
  | zero => exact fun h => ⟨congrArg Except.error h.overrun, h.log _ _⟩
  | succ levels ih => exact carries_expressionOver (Keeps.within d levels) ih d s r

theorem carries_expression (s r : Reader) :
    c.Carries id d.grammar.expression d.grammar.expression s r := by
  intro h
  show ((d.grammar.within (r.limit - r.depth + 1)).run r).1 = _ ∧
    c.Alike _ ((d.grammar.within (r.limit - r.depth + 1)).run r).2
  rw [h.levels]
  exact carries_within d _ s r h

theorem carries_operand (s r : Reader) : c.Carries id d.grammar.operand d.grammar.operand s r :=
  carries_operandOver (Keeps.expression d) (carries_expression d) s r

theorem carries_addend (s r : Reader) : c.Carries id d.grammar.addend d.grammar.addend s r :=
  carries_addendOver (Keeps.expression d) (carries_expression d) d s r

theorem carries_nextAddend (v : Value) (s r : Reader) :
    c.Carries (Option.map id) (d.grammar.nextAddend v) (d.grammar.nextAddend v) s r :=
  carries_sumStep (carries_addend d) v s r

end

end Setting

end Reckon
