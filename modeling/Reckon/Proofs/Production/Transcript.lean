import Reckon.Proofs.Production.Accounts

/-!
# What a run writes down

A reader writes down each symbol when it reads it and again when it consumes it, with the place
it has reached by then. Besides that a run writes down its literals, and a level that is too deep
is the last thing it writes.
-/

namespace Reckon

namespace Source

/-- No read fails: one that is interrupted is tried again. -/
def Sound (s : Source) : Prop := ∀ f, .fault f ∈ s → f.kind = .interrupted

theorem Sound.next {s : Source} (h : s.Sound) : ∃ x rest, s.next = (.ok x, rest) ∧ rest.Sound := by
  induction s with
  | nil => exact ⟨.finish, [], rfl, h⟩
  | cons o rest ih =>
    have hrest : Sound rest := fun f hf => h f (List.mem_cons_of_mem _ hf)
    cases o with
    | byte b => exact ⟨.byte b, rest, rfl, hrest⟩
    | finish => exact ⟨.finish, rest, rfl, hrest⟩
    | fault f =>
      rw [Source.next, if_pos (h f List.mem_cons_self)]
      exact ih hrest

theorem Sound.behind {s : Source} (h : s.Sound) (n : Nat) : (s.behind n).Sound := by
  induction n with
  | zero => exact h
  | succ n ih =>
    obtain ⟨x, rest, hnext, hrest⟩ := ih.next
    rwa [Source.behind, hnext]

end Source

/-! ## Records -/

namespace Record

def isRead : Record → Bool
  | read _ _ => true
  | _ => false

def isConsumed : Record → Bool
  | consumed _ => true
  | _ => false

/-- The reader has moved on. -/
def isStep (record : Record) : Bool := record.isRead || record.isConsumed

def isLiteral : Record → Bool
  | literal _ _ => true
  | _ => false

end Record

/-- What is written down on the way from `place` past these symbols. -/
def passed (place : Position) : List Symbol → List Record
  | [] => []
  | s :: rest => .read s place :: .consumed s :: passed (place.past s) rest

theorem passed_concat (place : Position) (symbols : List Symbol) (s : Symbol) :
    passed place (symbols ++ [s]) =
      passed place symbols ++ [.read s (symbols.foldl .past place), .consumed s] := by
  induction symbols generalizing place with
  | nil => rfl
  | cons x symbols ih =>
    rw [List.cons_append, passed, ih]
    rfl

theorem Position.foldl_past (symbols : List Symbol) :
    symbols.foldl .past start = behind symbols := by
  induction symbols using List.reverseRecOn with
  | nil => rfl
  | append_singleton symbols s ih => rw [List.foldl_append, ih, behind_concat]; rfl

/-- The last record of a run that fails, if it is one of a failure. -/
def Failure.warning : Failure → List Record
  | tooDeep limit place => [.limitReached limit place]
  | _ => []

/-! ## The log of a reader -/

/-- The reader has read its source up to the symbol in hand, after these advances, and the records
say so. -/
structure Transcribed (source : Source) (first : Symbol) (advances : List Advance)
    (records : List Record) (r : Reader) : Prop where
  account : SymbolAccount source first advances r
  sound : Advance.failedReads advances = 0
  steps : records.filter Record.isStep =
    passed .start (Advance.symbols advances) ++ [.read r.lookahead r.position]
  others : ∀ record ∈ records, record.isStep = true ∨ record.isLiteral = true

namespace Transcribed

variable {source : Source} {first : Symbol} {advances : List Advance} {records : List Record}
  {r : Reader}

theorem start {limit : Nat} {r₀ : Reader}
    (h : Production.prime.run (.fresh limit source) = (.ok (), r₀)) :
    Transcribed source r₀.lookahead [] r₀.log.toList r₀ := by
  have haccount := SymbolAccount.start h
  obtain ⟨s, hs, rfl⟩ := Reader.eq_of_prime h
  exact ⟨haccount, rfl, rfl, by simp [Record.isStep, Record.isRead]⟩

theorem literal (h : Transcribed source first advances records r) (v : Value) (place : Position) :
    Transcribed source first advances (records ++ [.literal v place]) r := by
  refine ⟨h.account, h.sound, ?_, ?_⟩
  · rw [List.filter_append, h.steps]
    exact List.append_nil _
  · intro record hrecord
    rcases List.mem_append.mp hrecord with hold | hnew
    · exact h.others record hold
    · rw [List.mem_singleton.mp hnew]
      exact .inr rfl

/-- The level does not matter, and the log is the one that the records are taken from. -/
theorem relevelled (h : Transcribed source first advances records r) (depth deepest : Nat)
    (log : Log) : Transcribed source first advances records
      { r with depth := depth, tally := { r.tally with deepest := deepest }, log := log } := by
  obtain ⟨⟨hconsumed, hreads, hlookahead, hposition, hrest, hleading⟩, hsound, hsteps, hothers⟩ := h
  exact ⟨⟨hconsumed, hreads, hlookahead, hposition, hrest, hleading⟩, hsound, hsteps, hothers⟩

/-- From a source that can be read, the symbol in hand is consumed and the next one is read. -/
theorem advance (hsource : source.Sound) (h : Transcribed source first advances r.log.toList r) :
    ∃ advances r', Production.advance.run r = (.ok r.lookahead, r') ∧
      Transcribed source first advances r'.log.toList r' := by
  obtain ⟨x, rest, hnext, -⟩ : ∃ x rest, r.source.next = (.ok x, rest) ∧ rest.Sound := by
    rw [h.account.rest]
    exact (hsource.behind _).next
  have hrun : Production.advance.run r = (.ok r.lookahead, r.advance.2) := by
    show r.advance = _
    unfold Reader.advance Reader.fetch
    rw [show r.release.source = r.source from rfl, hnext]
  have haccount := h.account.advance
  rw [hnext] at haccount
  refine ⟨_, r.advance.2, hrun, haccount, ?_, ?_, ?_⟩
  · rw [Advance.failedReads_concat_ok, h.sound]
  · have hsymbols : Advance.symbols (advances ++ [⟨r.lookahead, .ok x⟩]) =
        Advance.symbols advances ++ [r.lookahead] := by
      simp [Advance.symbols]
    have hplace : r.position = (Advance.symbols advances).foldl .past .start := by
      rw [Position.foldl_past, h.account.position]
    have hlog : r.advance.2.log.toList = r.log.toList ++
        [.consumed r.lookahead, .read x (r.position.past r.lookahead)] := by
      rw [Reader.advance_snd_of_ok hnext]
      simp [Reader.release]
    rw [hlog, List.filter_append, h.steps, hsymbols, passed_concat, ← hplace,
      Reader.advance_snd_of_ok hnext]
    simp [Record.isStep, Record.isRead, Record.isConsumed, Reader.release]
  · rw [Reader.advance_snd_of_ok hnext]
    intro record hrecord
    simp only [Reader.release, Array.toList_push, List.mem_append, List.mem_singleton] at hrecord
    rcases hrecord with (hold | rfl) | rfl
    · exact h.others record hold
    · exact .inl rfl
    · exact .inl rfl

end Transcribed

/-! ## Every run is written down -/

namespace Production

variable {α β : Type}

/-- From a reader whose log is a transcript, `p` leads to such a reader. If it fails, a warning may
come behind the transcript. -/
def Transcribes (source : Source) (p : Production α) (r : Reader) : Prop :=
  ∀ first advances, Transcribed source first advances r.log.toList r →
    p.Meets r (fun _ s => ∃ advances, Transcribed source first advances s.log.toList s)
      fun e s => ∃ advances records, s.log.toList = records ++ e.warning ∧
        Transcribed source first advances records s

namespace Transcribes

variable {source : Source} {p : Production α} {r : Reader}

theorem bind {f : α → Production β} (hp : Transcribes source p r)
    (hf : ∀ a s, p.run r = (.ok a, s) → Transcribes source (f a) s) :
    Transcribes source (p >>= f) r := by
  intro first advances h
  have hmeets := hp first advances h
  rw [meets_bind]
  unfold Meets at hmeets ⊢
  rcases hrun : p.run r with ⟨e | a, s⟩ <;> rw [hrun] at hmeets
  · exact hmeets
  · obtain ⟨advances', h'⟩ := hmeets
    exact hf a s hrun first advances' h'

/-- What fails without a warning. -/
theorem of_failure {e : Failure} {first : Symbol} {advances : List Advance}
    (he : e.warning = []) (h : Transcribed source first advances r.log.toList r) :
    ∃ advances records, r.log.toList = records ++ e.warning ∧
      Transcribed source first advances records r :=
  ⟨advances, r.log.toList, by rw [he, List.append_nil], h⟩

theorem overrun (r : Reader) : Transcribes source (overrun : Production α) r := by
  intro first advances h
  exact ⟨advances, r.log.toList, Array.toList_push, h.relevelled r.depth r.tally.deepest _⟩

theorem deeper (h : Transcribes source p r.enter) : Transcribes source (deeper p) r := by
  intro first advances hr
  rcases Nat.lt_or_ge r.depth r.limit with hlt | hle
  · rw [meets_deeper_of_lt hlt]
    refine meets_mono (h first advances (hr.relevelled _ _ _)) ?_ ?_
    · rintro v s ⟨advances', h'⟩
      exact ⟨advances', h'.relevelled _ s.tally.deepest _⟩
    · rintro e s ⟨advances', records, hlog, h'⟩
      exact ⟨advances', records, hlog, h'.relevelled _ s.tally.deepest _⟩
  · rw [meets_deeper_of_le hle]
    exact overrun (α := Value) r first advances hr

theorem simulation (hsource : source.Sound) : Simulation fun p _ r => Transcribes source p r where
  pure _ _ _ advances h := ⟨advances, h⟩
  bind := bind
  lookahead _ _ advances h := ⟨advances, h⟩
  position _ _ advances h := ⟨advances, h⟩
  tally _ _ advances h := ⟨advances, h⟩
  refuse _ _ _ _ h := of_failure rfl h
  located _ x _ _ advances h := by
    cases x with
    | ok a => exact ⟨advances, h⟩
    | error cause => exact of_failure rfl h
  note v place r _ advances h := by
    rw [meets_note]
    refine ⟨advances, ?_⟩
    rw [Array.toList_push]
    exact (h.literal v place).relevelled r.depth r.tally.deepest _
  advance r _ _ advances h := by
    obtain ⟨advances', r', hrun, h'⟩ := h.advance hsource
    rw [Meets, hrun]
    exact ⟨advances', h'⟩

theorem within (hsource : source.Sound) (d : Dialect) (levels : Nat) (r : Reader) :
    Transcribes source (d.grammar.within levels) r := by
  induction levels generalizing r with
  | zero => exact overrun r
  | succ levels ih =>
    have hinner (r : Reader) (hr : r.lookahead.IsOpening) : Transcribes source
        (Production.advance >>= fun _ => Production.deeper (d.grammar.within levels)) r := by
      have hadvance := (simulation hsource).advance r hr.not_isTerminator
      exact bind hadvance fun _ s _ => deeper (ih s.enter)
    exact @Simulation.expressionOver _ (simulation hsource) _ (d.grammar.within levels) hinner d r

theorem expression (hsource : source.Sound) (d : Dialect) (r : Reader) :
    Transcribes source d.grammar.expression r :=
  within hsource d (r.limit - r.depth + 1) r

end Transcribes

end Production

end Reckon
