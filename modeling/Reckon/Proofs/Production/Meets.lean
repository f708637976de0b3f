import Reckon.Grammar

/-!
# Pre- and postconditions

`p.Meets r Q E` says how a run from `r` ends: in a value and a reader that satisfy `Q`, or in a
failure and a reader that satisfy `E`. One rule per way to build a production.
-/

namespace Reckon.Production

variable {α β : Type}

def Meets (p : Production α) (r : Reader) (Q : α → Reader → Prop)
    (E : Failure → Reader → Prop) : Prop :=
  match p.run r with
  | (.ok a, r') => Q a r'
  | (.error e, r') => E e r'

theorem meets_mono {p : Production α} {r : Reader} {Q Q' : α → Reader → Prop}
    {E E' : Failure → Reader → Prop} (h : p.Meets r Q E) (hQ : ∀ a r', Q a r' → Q' a r')
    (hE : ∀ e r', E e r' → E' e r') : p.Meets r Q' E' := by
  unfold Meets at h ⊢
  generalize p.run r = result at h ⊢
  obtain ⟨e | a, r'⟩ := result
  · exact hE e r' h
  · exact hQ a r' h

theorem meets_ok_mono {p : Production α} {r : Reader} {Q Q' : α → Reader → Prop}
    {E : Failure → Reader → Prop} (h : p.Meets r Q E) (hQ : ∀ a r', Q a r' → Q' a r') :
    p.Meets r Q' E := meets_mono h hQ fun _ _ he => he

theorem meets_congr {p q : Production α} {r : Reader} {Q : α → Reader → Prop}
    {E : Failure → Reader → Prop} (h : p.run r = q.run r) : p.Meets r Q E ↔ q.Meets r Q E := by
  unfold Meets
  rw [h]

theorem meets_either_iff {p : Production α} {r : Reader} {I : Reader → Prop} :
    p.Meets r (fun _ => I) (fun _ => I) ↔ I (p.run r).2 := by
  unfold Meets
  rcases p.run r with ⟨e | a, r'⟩ <;> rfl

theorem exists_ok_of_meets {p : Production α} {r : Reader} {Q : α → Reader → Prop}
    (h : p.Meets r Q fun _ _ => False) : ∃ a r', p.run r = (.ok a, r') ∧ Q a r' := by
  unfold Meets at h
  rcases hrun : p.run r with ⟨e | a, r'⟩ <;> rw [hrun] at h
  · exact h.elim
  · exact ⟨a, r', rfl, h⟩

theorem exists_error_of_meets {p : Production α} {r : Reader} {E : Failure → Reader → Prop}
    (h : p.Meets r (fun _ _ => False) E) : ∃ e r', p.run r = (.error e, r') ∧ E e r' := by
  unfold Meets at h
  rcases hrun : p.run r with ⟨e | a, r'⟩ <;> rw [hrun] at h
  · exact ⟨e, r', rfl, h⟩
  · exact h.elim

variable {r : Reader} {E : Failure → Reader → Prop}

@[simp]
theorem meets_pure {a : α} {Q : α → Reader → Prop} :
    (pure a : Production α).Meets r Q E ↔ Q a r := Iff.rfl

@[simp]
theorem meets_bind {p : Production α} {f : α → Production β} {Q : β → Reader → Prop} :
    (p >>= f).Meets r Q E ↔ p.Meets r (fun a r' => (f a).Meets r' Q E) E := by
  unfold Meets
  rw [run_bind]
  rcases p.run r with ⟨e | a, r'⟩ <;> rfl

@[simp]
theorem meets_lookahead {Q : Symbol → Reader → Prop} :
    lookahead.Meets r Q E ↔ Q r.lookahead r := Iff.rfl

@[simp]
theorem meets_position {Q : Position → Reader → Prop} :
    position.Meets r Q E ↔ Q r.position r := Iff.rfl

@[simp]
theorem meets_tally {Q : Tally → Reader → Prop} : tally.Meets r Q E ↔ Q r.tally r := Iff.rfl

@[simp]
theorem meets_refuse {expected : Expected} {Q : α → Reader → Prop} :
    (refuse expected : Production α).Meets r Q E ↔ E (r.refusal expected) r := Iff.rfl

@[simp]
theorem meets_note {record : Reader → Record} {Q : Unit → Reader → Prop} :
    (note record).Meets r Q E ↔ Q () { r with log := r.log.push (record r) } := Iff.rfl

@[simp]
theorem meets_located_ok {place : Position} {a : α} {Q : α → Reader → Prop} :
    (located place (.ok a)).Meets r Q E ↔ Q a r := Iff.rfl

@[simp]
theorem meets_located_error {place : Position} {cause : ArithmeticError}
    {Q : α → Reader → Prop} :
    (located place (.error cause) : Production α).Meets r Q E ↔ E (.arithmetic cause place) r :=
  Iff.rfl

theorem run_deeper_of_le {p : Production α} (h : r.limit ≤ r.depth) :
    (deeper p).run r = (.error r.overrun.1, r.overrun.2) := if_pos h

theorem run_deeper_of_lt {p : Production α} (h : r.depth < r.limit) :
    (deeper p).run r = ((p.run r.enter).1, (p.run r.enter).2.leave) := if_neg (Nat.not_le.mpr h)

theorem meets_deeper_of_le {p : Production α} {Q : α → Reader → Prop} (h : r.limit ≤ r.depth) :
    (deeper p).Meets r Q E ↔ E r.overrun.1 r.overrun.2 := by
  unfold Meets
  rw [run_deeper_of_le h]

theorem meets_deeper_of_lt {p : Production α} {Q : α → Reader → Prop} (h : r.depth < r.limit) :
    (deeper p).Meets r Q E ↔
      p.Meets r.enter (fun a r' => Q a r'.leave) fun e r' => E e r'.leave := by
  unfold Meets
  rw [run_deeper_of_lt h]
  rcases p.run r.enter with ⟨e | a, r'⟩ <;> rfl

theorem meets_repeatWhile {step : α → Production (Option α)} {moves : ∀ a, (step a).Moves}
    {a : α} {Q : α → Reader → Prop} :
    (repeatWhile step moves a).Meets r Q E ↔
      (step a).Meets r (fun next r' =>
        match next with
        | some b => (repeatWhile step moves b).Meets r' Q E
        | none => Q a r') E := by
  unfold Meets
  rw [run_repeatWhile]
  rcases (step a).run r with ⟨e | _ | b, r'⟩ <;> rfl

theorem run_repeatWhile_of_none {step : α → Production (Option α)}
    {moves : ∀ a, (step a).Moves} {a : α} {r' : Reader} (h : (step a).run r = (.ok none, r')) :
    (repeatWhile step moves a).run r = (.ok a, r') := by
  rw [run_repeatWhile, h]

theorem run_bind_lookahead {f : Symbol → Production α} :
    (lookahead >>= f).run r = (f r.lookahead).run r := rfl

theorem run_bind_position {f : Position → Production α} :
    (position >>= f).run r = (f r.position).run r := rfl

theorem run_bind_some_ne_none {p : Production α} {r' : Reader} :
    (p >>= fun a => pure (some a)).run r ≠ (.ok none, r') := by
  rw [run_bind]
  split <;> simp

/-- What each round keeps, holds until the loop ends. -/
theorem meets_repeatWhile_of_invariant {step : α → Production (Option α)}
    {moves : ∀ a, (step a).Moves} {Q : α → Reader → Prop} (Inv : α → Reader → Prop)
    (hstep : ∀ a r, Inv a r → (step a).Meets r (fun next r' =>
      match next with
      | some b => Inv b r'
      | none => Q a r') E)
    {a : α} (ha : Inv a r) : (repeatWhile step moves a).Meets r Q E := by
  have hrun : match repeatRun step moves a r with
      | (.ok a, r') => Q a r'
      | (.error e, r') => E e r' := by
    fun_induction repeatRun step moves a r with
    | case1 a r b r' h _ ih =>
      have := hstep a r ha
      rw [Meets, h] at this
      exact ih this
    | case2 a r r' h =>
      have := hstep a r ha
      rwa [Meets, h] at this
    | case3 a r e r' h =>
      have := hstep a r ha
      rwa [Meets, h] at this
  exact hrun

/-! ## What holds at the end -/

theorem of_meets_of_run_ok {p : Production α} {a : α} {s : Reader} {Q : α → Reader → Prop}
    (h : p.Meets r Q fun _ _ => True) (hrun : p.run r = (.ok a, s)) : Q a s := by
  rwa [Meets, hrun] at h

/-- What holds at the end, depends on the last production alone. -/
theorem meets_bind_last {p : Production β} {f : β → Production α} {Q : α → Reader → Prop}
    (h : ∀ b s, (f b).Meets s Q fun _ _ => True) : (p >>= f).Meets r Q fun _ _ => True := by
  rw [meets_bind]
  unfold Meets
  rcases p.run r with ⟨e | b, s⟩
  · trivial
  · exact h b s

/-- A loop gives a value where its step has none. -/
theorem meets_repeatWhile_last {step : α → Production (Option α)}
    {moves : ∀ a, (step a).Moves} {a : α} {Q : α → Reader → Prop}
    (h : ∀ b s t, (step b).run s = (.ok none, t) → Q b t) :
    (repeatWhile step moves a).Meets r Q fun _ _ => True := by
  refine meets_repeatWhile_of_invariant (fun _ _ => True) (fun b s _ => ?_) trivial
  unfold Meets
  rcases hrun : (step b).run s with ⟨e | _ | c, t⟩
  · trivial
  · exact h b s t hrun
  · trivial

end Reckon.Production
