import Reckon.Proofs.Production.Spending
import Reckon.Proofs.Production.Straight

/-!
# Calls of the inner expression

A production calls the expression inside it at a reader if it matters what that expression does
there. Every call is one level further down and has fewer symbols to go, so the recursion ends
however the levels are limited, and it is never deeper than the levels allow.
-/

namespace Reckon

open Production

/-- With `inner` inside, what `rule` does from `r` depends on what `inner` does from `s` alone. -/
def Consults {α : Type} (rule : Production Value → Production α) (inner : Production Value)
    (r s : Reader) : Prop :=
  ∃ other : Production Value, (∀ t, t ≠ s → other.run t = inner.run t) ∧
    (rule other).run r ≠ (rule inner).run r

/-- Where a call can begin while a production is read from `r`. -/
structure Reader.Inside (r s : Reader) : Prop where
  toGo : s.toGo < r.toGo
  depth : s.depth = r.depth + 1
  limit : s.limit = r.limit
  room : s.depth ≤ s.limit

/-! ## What is called at all -/

namespace Production

variable {α β : Type}

/-- While a production is read from `entry`, `p` and `q` do the same. -/
structure Matches (entry : Reader) (p q : Production α) (r : Reader) : Prop where
  keeps : Keeps p r
  spends : Spends 0 p r
  same : r.toGo ≤ entry.toGo → r.depth = entry.depth → r.limit = entry.limit → p.run r = q.run r

namespace Matches

variable {entry : Reader} {p q : Production α} {r : Reader}

theorem refl (hkeeps : Keeps p r) (hspends : Spends 0 p r) : Matches entry p p r :=
  ⟨hkeeps, hspends, fun _ _ _ => rfl⟩

theorem bind {f g : α → Production β} (hp : Matches entry p q r)
    (hf : ∀ a s, p.run r = (.ok a, s) → Matches entry (f a) (g a) s) :
    Matches entry (p >>= f) (q >>= g) r := by
  refine ⟨hp.keeps.bind fun a s hrun => (hf a s hrun).keeps,
    hp.spends.bind fun a s hrun => (hf a s hrun).spends, fun htoGo hdepth hlimit => ?_⟩
  refine run_bind_congr (hp.same htoGo hdepth hlimit) fun a s hrun => ?_
  obtain ⟨k, -, hspent⟩ := hp.spends a s hrun
  have hlimit' : s.limit = r.limit := by simpa [hrun] using hp.keeps.limit
  have hdepth' : s.depth = r.depth := by simpa [hrun] using hp.keeps.depth
  refine (hf a s hrun).same ?_ (hdepth'.trans hdepth) (hlimit'.trans hlimit)
  have := hspent.toGo
  omega

theorem simulation : Simulation (Matches entry) where
  pure _ _ := refl (Keeps.simulation.pure _ _) (Spends.simulation.pure _ _)
  bind := bind
  lookahead _ := refl (Keeps.simulation.lookahead _) (Spends.simulation.lookahead _)
  position _ := refl (Keeps.simulation.position _) (Spends.simulation.position _)
  tally _ := refl (Keeps.simulation.tally _) (Spends.simulation.tally _)
  refuse _ _ := refl (Keeps.simulation.refuse _ _) (Spends.simulation.refuse _ _)
  located _ _ _ := refl (Keeps.simulation.located _ _ _) (Spends.simulation.located _ _ _)
  note _ _ _ := refl (Keeps.simulation.note _ _ _) (Spends.simulation.note _ _ _)
  advance r h := refl (.advance r) (Spends.simulation.advance r h)

/-- Behind an opening only the readers inside `entry` matter. -/
theorem opening {inner other : Production Value} (hkeeps : ∀ s, Keeps inner s)
    (hspends : ∀ s, Spends 0 inner s) (h : ∀ s, entry.Inside s → inner.run s = other.run s)
    (r : Reader) (hr : r.lookahead.IsOpening) :
    Matches entry (advance >>= fun _ => deeper inner) (advance >>= fun _ => deeper other) r := by
  have hlookahead := hr.not_isTerminator
  refine ⟨(Keeps.advance r).bind fun _ s _ => .deeper fun _ => hkeeps s.enter,
    (Spends.simulation.advance r hlookahead).bind fun _ s _ => .deeper (hspends s.enter),
    fun htoGo hdepth hlimit => run_bind_congr rfl fun x s hrun => ?_⟩
  obtain ⟨k, hk, hspent⟩ := Spends.advance hlookahead x s hrun
  have hkeeps' := Keeps.advance r
  have hlimit' : s.limit = r.limit := by simpa [hrun] using hkeeps'.limit
  have hdepth' : s.depth = r.depth := by simpa [hrun] using hkeeps'.depth
  rcases Nat.lt_or_ge s.depth s.limit with hlt | hle
  · have hinside : entry.Inside s.enter := by
      refine ⟨?_, ?_, hlimit'.trans hlimit, hlt⟩
      · show s.toGo < _
        have := hspent.toGo
        omega
      · show s.depth + 1 = _
        omega
    rw [run_deeper_of_lt hlt, run_deeper_of_lt hlt, h s.enter hinside]
  · rw [run_deeper_of_le hle, run_deeper_of_le hle]

theorem expression_opening (d : Dialect) {other : Production Value}
    (h : ∀ s, entry.Inside s → d.grammar.expression.run s = other.run s) (r : Reader)
    (hr : r.lookahead.IsOpening) :
    Matches entry (advance >>= fun _ => deeper d.grammar.expression)
      (advance >>= fun _ => deeper other) r :=
  opening (Keeps.expression d) (fun s => (Spends.expression d s).zero) h r hr

end Matches

end Production

/-- What reads the expression only behind openings, calls it only from inside. -/
theorem inside_of_consults {α : Type} {rule : Production Value → Production α} {d : Dialect}
    {r s : Reader}
    (hrule : ∀ other : Production Value,
      (∀ t, t.lookahead.IsOpening → Matches r (advance >>= fun _ => deeper d.grammar.expression)
        (advance >>= fun _ => deeper other) t) →
        Matches r (rule d.grammar.expression) (rule other) r)
    (h : Consults rule d.grammar.expression r s) : r.Inside s := by
  obtain ⟨other, hother, hne⟩ := h
  by_contra hinside
  have hsame (t : Reader) (ht : r.Inside t) : d.grammar.expression.run t = other.run t := by
    refine (hother t ?_).symm
    rintro rfl
    exact hinside ht
  exact hne ((hrule other (Matches.expression_opening d hsame)).same (Nat.le_refl _) rfl rfl).symm

theorem inside_of_consults_expressionOver {d : Dialect} {r s : Reader}
    (h : Consults d.grammar.expressionOver d.grammar.expression r s) : r.Inside s :=
  inside_of_consults (fun _ ht => Matches.simulation.expressionOver ht d r) h

/-! ## What is called for sure -/

namespace Production

open Classical in
/-- Fails with `e` from `s`, and does what `p` does from every other reader. -/
noncomputable def failingAt {α : Type} (p : Production α) (s : Reader) (e : Failure) :
    Production α where
  run t := if t = s then (.error e, t) else p.run t
  unread_le t := by
    split
    · exact Nat.le_refl _
    · exact p.unread_le t

theorem run_failingAt_self {α : Type} (p : Production α) (s : Reader) (e : Failure) :
    (p.failingAt s e).run s = (.error e, s) := if_pos rfl

theorem run_failingAt_of_ne {α : Type} (p : Production α) {s t : Reader} (e : Failure)
    (h : t ≠ s) : (p.failingAt s e).run t = p.run t := if_neg h

end Production

/-- What lets every failure from `s` through, has called there. -/
theorem consults_of_failing {α : Type} {rule : Production Value → Production α}
    {inner : Production Value} {r s u : Reader}
    (h : ∀ e, (rule (inner.failingAt s e)).run r = (.error e, u)) : Consults rule inner r s := by
  by_contra hnot
  -- The outcome would be every failure at once.
  have hsame (e : Failure) : (rule inner).run r = (.error e, u) := by
    by_contra hne
    refine hnot ⟨inner.failingAt s e, fun t => run_failingAt_of_ne inner e, ?_⟩
    rw [h e]
    exact Ne.symm hne
  have hfailures : Failure.tooDeep 0 .start = Failure.tooDeep 1 .start :=
    Except.error.inj (Prod.mk.inj ((hsame _).symm.trans (hsame _))).1
  cases hfailures

theorem run_operandOver_of_openParen {inner : Production Value} {r s u : Reader} {x : Symbol}
    {e : Failure} (hparen : r.lookahead = .openParen) (hadvance : advance.run r = (.ok x, s))
    (hroom : s.depth < s.limit) (h : inner.run s.enter = (.error e, u)) :
    (operandOver inner).run r = (.error e, u.leave) := by
  unfold operandOver
  rw [run_bind_lookahead, hparen, if_neg (by decide), if_pos rfl, run_bind_ok hadvance]
  exact run_bind_error (by rw [run_deeper_of_lt hroom, h])

/-- An opening parenthesis with room behind it is a call. -/
theorem consults_of_openParen (d : Dialect) {inner : Production Value} {r s : Reader} {x : Symbol}
    (hparen : r.lookahead = .openParen) (hadvance : advance.run r = (.ok x, s))
    (hroom : s.depth < s.limit) : Consults d.grammar.expressionOver inner r s.enter := by
  refine consults_of_failing (u := s.enter.leave) fun e => ?_
  have hoperand := run_operandOver_of_openParen hparen hadvance hroom
    (run_failingAt_self inner s.enter e)
  cases d with
  | standard => exact run_bind_error (run_bind_error hoperand)
  | ternary => exact run_bind_error hoperand

/-! ## One solution -/

/-- The expression is the only production that obeys the rule of its grammar, since what it calls
has fewer symbols to go. -/
theorem eq_expressionOver_iff (d : Dialect) (p : Production Value) :
    p = d.grammar.expressionOver p ↔ p = d.grammar.expression := by
  constructor
  · intro hp
    refine ext fun r => ?_
    -- What `p` does inside `r` is known, and nothing else that it calls matters.
    induction hn : r.toGo using Nat.strongRecOn generalizing r with
    | ind n ih =>
      have hsame (s : Reader) (hs : r.Inside s) : d.grammar.expression.run s = p.run s :=
        (ih _ (hn ▸ hs.toGo) s rfl).symm
      have hmatches := Matches.simulation.expressionOver (Matches.expression_opening d hsame) d r
      rw [hp, expression_eq d]
      exact (hmatches.same (Nat.le_refl _) rfl rfl).symm
  · rintro rfl
    exact expression_eq d

/-! ## Activations -/

/-- While the expression is read from `r`, `n` more of them are begun inside each other, the
innermost at `s`. -/
inductive Activations (d : Dialect) (r : Reader) : Nat → Reader → Prop
  | outermost : Activations d r 0 r
  | inside {n : Nat} {s t : Reader} (h : Activations d r n s)
    (hcall : Consults d.grammar.expressionOver d.grammar.expression s t) :
    Activations d r (n + 1) t

namespace Activations

variable {d : Dialect} {r s : Reader} {n : Nat}

theorem depth_eq (h : Activations d r n s) : s.depth = r.depth + n ∧ s.limit = r.limit := by
  induction h with
  | outermost => exact ⟨rfl, rfl⟩
  | inside _ hcall ih =>
    have hinside := inside_of_consults_expressionOver hcall
    exact ⟨by rw [hinside.depth, ih.1, Nat.add_assoc], hinside.limit.trans ih.2⟩

theorem toGo_add_le (h : Activations d r n s) : s.toGo + n ≤ r.toGo := by
  induction h with
  | outermost => exact Nat.le_refl _
  | inside _ hcall ih =>
    have := (inside_of_consults_expressionOver hcall).toGo
    omega

/-- The first expression and those inside it are no more than there are levels. -/
theorem count_le (h : Activations d r n s) (hr : r.depth ≤ r.limit) :
    n + 1 ≤ r.limit - r.depth + 1 := by
  have hroom : s.depth ≤ s.limit := by
    cases h with
    | outermost => exact hr
    | inside _ hcall => exact (inside_of_consults_expressionOver hcall).room
  obtain ⟨hdepth, hlimit⟩ := h.depth_eq
  omega

end Activations

end Reckon
