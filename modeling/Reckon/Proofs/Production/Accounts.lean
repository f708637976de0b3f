import Mathlib.Data.List.DropRight
import Mathlib.Order.Bounds.Basic
import Reckon.Proofs.Production.Actions

/-!
# What a reader says about itself

The counts, the levels, the position and the symbol of a reader, checked against the actions that
led to it. A read that fails leaves the old symbol in hand after the position has moved on, and
the accounts have to hold there too.
-/

namespace Reckon

namespace Source

/-- What is left of a source after so many reads. -/
def behind (s : Source) : Nat → Source
  | 0 => s
  | n + 1 => (s.behind n).next.2

/-- What read number `i` gives, counted from zero. -/
def given (s : Source) (i : Nat) : Except Fault Symbol := (s.behind i).next.1

end Source

/-- Where a reader is that has consumed these symbols. -/
def Position.behind (symbols : List Symbol) : Position where
  line := symbols.count (.byte Byte.newline)
  column := (symbols.rtakeWhile (· ≠ .byte Byte.newline)).countP (· ≠ .finish)

theorem Position.behind_concat (symbols : List Symbol) (s : Symbol) :
    behind (symbols ++ [s]) = (behind symbols).past s := by
  unfold behind
  cases s with
  | finish => simp [past]
  | byte b =>
    by_cases hb : b = Byte.newline
    · simp [past, hb]
    · simp [past, hb]

/-! ## What the advances do -/

/-- The symbol that one advance consumes, and what it reads behind it. -/
structure Advance where
  symbol : Symbol
  read : Except Fault Symbol

namespace Advance

def symbols (advances : List Advance) : List Symbol := advances.map symbol

/-- What was read, without the reads that failed. -/
def obtained (advances : List Advance) : List Symbol :=
  advances.filterMap fun a => a.read.toOption

def failedReads (advances : List Advance) : Nat := advances.countP fun a => !a.read.isOk

variable (advances : List Advance) (s s' : Symbol) (fault : Fault)

theorem obtained_concat_ok : obtained (advances ++ [⟨s, .ok s'⟩]) = obtained advances ++ [s'] := by
  simp [obtained, Except.toOption]

theorem obtained_concat_error : obtained (advances ++ [⟨s, .error fault⟩]) = obtained advances := by
  simp [obtained, Except.toOption]

theorem failedReads_concat_ok :
    failedReads (advances ++ [⟨s, .ok s'⟩]) = failedReads advances := by
  simp [failedReads, Except.isOk, Except.toBool]

theorem failedReads_concat_error :
    failedReads (advances ++ [⟨s, .error fault⟩]) = failedReads advances + 1 := by
  simp [failedReads, Except.isOk, Except.toBool]

end Advance

namespace Reader

def advances (r : Reader) : List Action → List Advance
  | [] => []
  | action :: actions =>
    (if action = .advance then [⟨r.lookahead, r.source.next.1⟩] else []) ++
      (r.perform action).advances actions

theorem advances_concat (r : Reader) (actions : List Action) (action : Action) :
    r.advances (actions ++ [action]) = r.advances actions ++
      if action = .advance then
        [⟨(r.performAll actions).lookahead, (r.performAll actions).source.next.1⟩]
      else [] := by
  induction actions generalizing r with
  | nil => simp [advances]
  | cons first actions ih =>
    rw [List.cons_append, advances, advances, ih, List.append_assoc]
    rfl

theorem advance_snd_of_ok {r : Reader} {s : Symbol} {rest : Source}
    (h : r.source.next = (.ok s, rest)) :
    r.advance.2 = { r.release with
      source := rest
      lookahead := s
      tally := { r.release.tally with reads := r.tally.reads + 1 }
      log := r.release.log.push (.read s r.release.position) } := by
  rw [advance_snd, fetch, show r.release.source = r.source from rfl, h]
  rfl

theorem advance_snd_of_error {r : Reader} {fault : Fault} {rest : Source}
    (h : r.source.next = (.error fault, rest)) :
    r.advance.2 = { r.release with source := rest } := by
  rw [advance_snd, fetch, show r.release.source = r.source from rfl, h]

theorem eq_of_prime {limit : Nat} {source : Source} {r₀ : Reader}
    (h : Production.prime.run (.fresh limit source) = (.ok (), r₀)) :
    ∃ s, source.next.1 = .ok s ∧ r₀ =
      { fresh limit source with
        source := source.next.2
        lookahead := s
        tally := ⟨1, 0, 0⟩
        log := #[.read s .start] } := by
  change (fresh limit source).fetch = _ at h
  rw [fetch, show (fresh limit source).source = source from rfl] at h
  rcases hnext : source.next with ⟨fault | s, rest⟩ <;> rw [hnext] at h
  · simp at h
  · exact ⟨s, rfl, (Prod.mk.inj h).2.symm⟩

end Reader

/-! ## Symbols -/

/-- What `r` says about symbols is true, if it has made these advances and its first symbol was
`first`. -/
structure SymbolAccount (source : Source) (first : Symbol) (advances : List Advance) (r : Reader) :
    Prop where
  consumed : r.tally.consumed = advances.length
  /-- Behind the first symbol, there was one read for each symbol consumed. -/
  reads : r.tally.reads + Advance.failedReads advances = r.tally.consumed + 1
  lookahead : (first :: Advance.obtained advances).getLast? = some r.lookahead
  position : r.position = .behind (Advance.symbols advances)
  rest : r.source = source.behind (r.tally.consumed + 1)
  leading : Advance.failedReads advances = 0 →
    (List.range (r.tally.consumed + 1)).map source.given =
      (Advance.symbols advances ++ [r.lookahead]).map .ok

namespace SymbolAccount

variable {source : Source} {first : Symbol} {advances : List Advance} {r r₀ : Reader}

theorem start {limit : Nat} (h : Production.prime.run (.fresh limit source) = (.ok (), r₀)) :
    SymbolAccount source r₀.lookahead [] r₀ := by
  obtain ⟨s, hs, rfl⟩ := Reader.eq_of_prime h
  have hgiven : (List.range 1).map source.given = [.ok s] := congrArg (fun x => [x]) hs
  exact ⟨rfl, rfl, rfl, rfl, rfl, fun _ => hgiven⟩

theorem advance (h : SymbolAccount source first advances r) :
    SymbolAccount source first (advances ++ [⟨r.lookahead, r.source.next.1⟩]) r.advance.2 := by
  have hlength (a : Advance) : r.tally.consumed + 1 = (advances ++ [a]).length := by
    simp [h.consumed]
  have hposition (read : Except Fault Symbol) : r.position.past r.lookahead =
      .behind (Advance.symbols (advances ++ [⟨r.lookahead, read⟩])) := by
    rw [h.position, ← Position.behind_concat]
    simp [Advance.symbols]
  have hrest : r.source.next.2 = source.behind (r.tally.consumed + 2) := by
    rw [Source.behind, ← h.rest]
  have hreads := h.reads
  rcases hnext : r.source.next with ⟨fault | s, rest⟩ <;> rw [hnext] at hrest
  · -- The symbol stays in hand, but it is consumed.
    have hfailed := Advance.failedReads_concat_error advances r.lookahead fault
    rw [Reader.advance_snd_of_error hnext]
    refine ⟨hlength _, ?_, ?_, hposition _, hrest, ?_⟩
    · rw [hfailed]
      exact congrArg (· + 1) hreads
    · rw [Advance.obtained_concat_error]
      exact h.lookahead
    · intro hnone
      exact absurd (hfailed.symm.trans hnone) (Nat.succ_ne_zero _)
  · have hfailed := Advance.failedReads_concat_ok advances r.lookahead s
    rw [Reader.advance_snd_of_ok hnext]
    refine ⟨hlength _, ?_, ?_, hposition _, hrest, ?_⟩
    · rw [hfailed]
      show r.tally.reads + 1 + _ = r.tally.consumed + 1 + 1
      omega
    · rw [Advance.obtained_concat_ok, ← List.cons_append, List.getLast?_concat]
    · intro hnone
      have hgiven : source.given (r.tally.consumed + 1) = .ok s := by
        rw [Source.given, ← h.rest, hnext]
      show (List.range (r.tally.consumed + 1 + 1)).map source.given = _
      rw [List.range_succ, List.map_append, h.leading (hfailed ▸ hnone)]
      simp [hgiven, Advance.symbols]

/-- Only the advances matter for what is said about symbols. -/
theorem performAll (h : SymbolAccount source first [] r) (actions : List Action) :
    SymbolAccount source first (r.advances actions) (r.performAll actions) := by
  induction actions using List.reverseRecOn with
  | nil => exact h
  | append_singleton actions action ih =>
    rw [Reader.performAll_concat, Reader.advances_concat]
    cases action with
    | advance => exact ih.advance
    | enter | leave | note =>
      rw [if_neg (by simp), List.append_nil]
      exact ⟨ih.consumed, ih.reads, ih.lookahead, ih.position, ih.rest, ih.leading⟩

end SymbolAccount

/-! ## Levels -/

/-- The depths on the way from `r₀` along the actions, both ends included. -/
def Reader.depths (r₀ : Reader) (actions : List Action) : Set Nat :=
  {depth | ∃ before, before <+: actions ∧ (r₀.performAll before).depth = depth}

/-- What `r` says about levels is true, if these actions have led to it from `r₀`. -/
structure LevelAccount (limit : Nat) (r₀ : Reader) (actions : List Action) (r : Reader) : Prop where
  depth : r.depth + actions.count .leave = actions.count .enter
  deepest : IsGreatest (r₀.depths actions) r.tally.deepest
  current : r.depth ≤ r.tally.deepest
  limit : r.tally.deepest ≤ limit

namespace LevelAccount

variable {limit : Nat} {r₀ r : Reader} {actions : List Action}

theorem depths_concat (r₀ : Reader) (actions : List Action) (action : Action) :
    r₀.depths (actions ++ [action]) =
      insert ((r₀.performAll actions).perform action).depth (r₀.depths actions) := by
  ext depth
  simp only [Reader.depths, List.prefix_concat_iff, ← Reader.performAll_concat, Set.mem_insert_iff,
    Set.mem_ofPred_eq, or_and_right, exists_or, exists_eq_left, eq_comm]

theorem perform_deepest (h : r.depth ≤ r.tally.deepest) (action : Action) :
    (r.perform action).tally.deepest = max (r.perform action).depth r.tally.deepest := by
  cases action with
  | advance =>
    have hdepth : (r.perform .advance).depth = r.depth := (Production.Keeps.advance r).depth
    rw [hdepth, max_eq_right h]
    exact r.advance_deepest
  | enter => exact max_comm _ _
  | leave => exact (max_eq_right (Nat.le_trans (Nat.sub_le _ _) h)).symm
  | note record => exact (max_eq_right h).symm

theorem perform (h : LevelAccount limit r₀ actions r) (hr : r₀.performAll actions = r)
    (action : Action)
    (hroom : (actions ++ [action]).count .leave ≤ (actions ++ [action]).count .enter ∧
      (actions ++ [action]).count .enter ≤ (actions ++ [action]).count .leave + limit) :
    LevelAccount limit r₀ (actions ++ [action]) (r.perform action) := by
  have hdeepest := perform_deepest h.current action
  have hdepth : (r.perform action).depth + (actions ++ [action]).count .leave =
      (actions ++ [action]).count .enter := by
    have := h.depth
    rw [List.count_append, List.count_append] at hroom ⊢
    cases action with
    | advance => exact (Production.Keeps.advance r).depth ▸ this
    | enter =>
      show r.depth + 1 + (_ + 0) = _ + 1
      omega
    | leave =>
      -- The depth is cut off at zero, but then there was no level to leave.
      change _ + 1 ≤ _ + 0 ∧ _ at hroom
      show r.depth - 1 + (_ + 1) = _ + 0
      omega
    | note record => exact this
  have hlimit := h.limit
  refine ⟨hdepth, ?_, ?_, ?_⟩
  · rw [depths_concat, hr, hdeepest]
    exact h.deepest.insert _
  · omega
  · omega

/-- Every level that is entered has room below the limit, so the deepest one has. -/
theorem performAll (hdepth : r₀.depth = 0) (hdeepest : r₀.tally.deepest = 0)
    (h : ∀ before, before <+: actions → before.count .leave ≤ before.count .enter ∧
      before.count .enter ≤ before.count .leave + limit) :
    LevelAccount limit r₀ actions (r₀.performAll actions) := by
  induction actions using List.reverseRecOn with
  | nil =>
    have hdepths : r₀.depths [] = {r₀.tally.deepest} := by
      ext depth
      simp [Reader.depths, hdepth, hdeepest, eq_comm]
    exact ⟨hdepth, hdepths ▸ isGreatest_singleton, by simp [hdepth], by simp [hdeepest]⟩
  | append_singleton actions action ih =>
    rw [Reader.performAll_concat]
    refine (ih fun before hbefore => ?_).perform rfl action (h _ (List.prefix_refl _))
    exact h before (hbefore.trans (List.prefix_append _ _))

end LevelAccount

end Reckon
