import Reckon.Evaluation
import Reckon.Proofs.Production.Meets
import Reckon.Proofs.Syntax.Numeral

/-!
# Readers in the middle of a line

Where a reader of plain bytes stands, and how single steps move it.
-/

namespace Reckon

open Production

/-- The reader has consumed `done`, all of it on the first line, and `ahead` is in front of it.
It is `depth` levels deep and goes no deeper than `limit`. -/
structure Reader.At (r : Reader) (limit depth : Nat) (done ahead : List UInt8) : Prop where
  position : r.position = ⟨0, done.length⟩
  lookahead : r.lookahead = .first ahead
  source : r.source = .ofBytes ahead.tail
  limit : r.limit = limit
  depth : r.depth = depth

namespace Reader.At

variable {r : Reader} {limit depth : Nat} {done ahead : List UInt8}

theorem refusal (h : r.At limit depth done ahead) (expected : Expected) :
    r.refusal expected = .refused ⟨expected, .first ahead, ⟨0, done.length⟩⟩ := by
  rw [Reader.refusal, h.lookahead, h.position]

theorem overrun (h : r.At limit depth done ahead) :
    r.overrun.1 = .tooDeep limit ⟨0, done.length⟩ := by
  rw [Reader.overrun, h.limit, h.position]

theorem log (h : r.At limit depth done ahead) (log : Log) :
    { r with log := log }.At limit depth done ahead :=
  ⟨h.position, h.lookahead, h.source, h.limit, h.depth⟩

theorem enter (h : r.At limit depth done ahead) : r.enter.At limit (depth + 1) done ahead :=
  ⟨h.position, h.lookahead, h.source, h.limit, congrArg (· + 1) h.depth⟩

theorem leave (h : r.At limit depth done ahead) : r.leave.At limit (depth - 1) done ahead :=
  ⟨h.position, h.lookahead, h.source, h.limit, congrArg (· - 1) h.depth⟩

end Reader.At

theorem Source.next_ofBytes (bytes : List UInt8) :
    (Source.ofBytes bytes).next = (.ok (.first bytes), .ofBytes bytes.tail) := by
  cases bytes <;> rfl

namespace Production

variable {α : Type} {r : Reader} {limit depth : Nat} {done ahead : List UInt8}
  {E : Failure → Reader → Prop}

theorem meets_prime {bytes : List UInt8} {Q : Unit → Reader → Prop}
    (hQ : ∀ r, r.At limit 0 [] bytes → Q () r) :
    prime.Meets (.fresh limit (.ofBytes bytes)) Q E := by
  unfold Meets prime
  simp only [Reader.fetch, Reader.fresh, Source.next_ofBytes]
  exact hQ _ ⟨rfl, rfl, rfl, rfl, rfl⟩

theorem meets_advance {b : UInt8} {Q : Symbol → Reader → Prop}
    (h : r.At limit depth done (b :: ahead)) (hb : b ≠ Byte.newline)
    (hQ : ∀ r', r'.At limit depth (done ++ [b]) ahead → Q (.byte b) r') :
    advance.Meets r Q E := by
  have hlook : r.lookahead = .byte b := h.lookahead
  have hsource : r.release.source = .ofBytes ahead := h.source
  have hrelease : r.release.position = ⟨0, (done ++ [b]).length⟩ := by
    rw [Reader.release, h.position, hlook]
    simp [Position.past, hb]
  unfold Meets advance
  simp only [Reader.advance, Reader.fetch, hsource, Source.next_ofBytes, hlook]
  exact hQ _ ⟨hrelease, rfl, rfl, h.limit, h.depth⟩

theorem meets_require {b : UInt8} {Q : Unit → Reader → Prop}
    (h : r.At limit depth done (b :: ahead)) (hb : b ≠ Byte.newline)
    (hQ : ∀ r', r'.At limit depth (done ++ [b]) ahead → Q () r') : (require b).Meets r Q E := by
  unfold require
  simp only [meets_bind, meets_lookahead]
  rw [if_pos (show r.lookahead = .byte b from h.lookahead), meets_bind]
  exact meets_advance h hb hQ

theorem meets_require_of_ne {b : UInt8} {Q : Unit → Reader → Prop} (h : r.lookahead ≠ .byte b)
    (hE : E (r.refusal (.byte b)) r) : (require b).Meets r Q E := by
  unfold require
  simp only [meets_bind, meets_lookahead]
  rwa [if_neg h]

theorem meets_requireEnd {Q : Unit → Reader → Prop} (h : r.lookahead.isTerminator = true)
    (hQ : Q () r) : requireEnd.Meets r Q E := by
  unfold requireEnd
  simp only [meets_bind, meets_lookahead, h]
  exact hQ

theorem meets_requireEnd_of_not {Q : Unit → Reader → Prop}
    (h : r.lookahead.isTerminator = false) (hE : E (r.refusal .finish) r) :
    requireEnd.Meets r Q E := by
  unfold requireEnd
  simp only [meets_bind, meets_lookahead, h]
  exact hE

/-! ## Following a computation -/

variable {β γ δ : Type}

/-- From `r`, `p` ends as `w` does: with the same failure, or with values and a reader that `Q`
relates. -/
def Follows (p : Production α) (r : Reader) (w : Except Failure β) (Q : α → β → Reader → Prop) :
    Prop :=
  p.Meets r (fun a r' => ∃ b, w = .ok b ∧ Q a b r') fun e _ => w = .error e

theorem follows_bind {p : Production α} {f : α → Production γ} {w : Except Failure β}
    {g : β → Except Failure δ} {Q : α → β → Reader → Prop} {Q' : γ → δ → Reader → Prop}
    (hp : p.Follows r w Q) (hf : ∀ a b r', Q a b r' → (f a).Follows r' (g b) Q') :
    (p >>= f).Follows r (w >>= g) Q' := by
  unfold Follows
  rw [meets_bind]
  refine meets_mono hp ?_ ?_
  · rintro a r' ⟨b, rfl, hQ⟩
    exact hf a b r' hQ
  · rintro e r' rfl
    rfl

theorem follows_repeatWhile {step : α → Production (Option α)} {moves : ∀ a, (step a).Moves}
    {a : α} {w : Except Failure β} {g : β → Except Failure δ} {Q : α → δ → Reader → Prop}
    (h : (step a).Follows r w fun next b r' =>
      ∃ a', next = some a' ∧ (repeatWhile step moves a').Follows r' (g b) Q) :
    (repeatWhile step moves a).Follows r (w >>= g) Q := by
  unfold Follows
  rw [meets_repeatWhile]
  refine meets_mono h ?_ ?_
  · rintro _ r' ⟨b, rfl, a', rfl, hrest⟩
    exact hrest
  · rintro e r' rfl
    rfl

theorem follows_congr {p q : Production α} {w : Except Failure β} {Q : α → β → Reader → Prop}
    (h : p.run r = q.run r) (hq : q.Follows r w Q) : p.Follows r w Q := (meets_congr h).mpr hq

theorem follows_pure {a : α} {b : β} {Q : α → β → Reader → Prop} (h : Q a b r) :
    (pure a : Production α).Follows r (.ok b) Q := ⟨b, rfl, h⟩

end Production

end Reckon
