import Reckon.Proofs.Production.Limited

/-!
# What a run has read

A run takes the outcomes of its source one by one and depends on no others. It reads on only
behind a symbol of an expression, so a newline, the end of the input or a fault is the last thing
that it reads.
-/

namespace Reckon

namespace Outcome

/-- What reading it gives. -/
def read : Outcome → Except Fault Symbol
  | byte b => .ok (.byte b)
  | finish => .ok .finish
  | fault f => .error f

/-- A byte that does not end an expression. -/
def isPlain : Outcome → Bool
  | byte b => b ≠ Byte.newline
  | finish => false
  | fault _ => false

end Outcome

def Symbol.outcome : Symbol → Outcome
  | .byte b => .byte b
  | .finish => .finish

theorem Symbol.outcome_ne_fault (s : Symbol) (f : Fault) : s.outcome ≠ .fault f := by
  cases s <;> exact nofun

theorem Symbol.outcome_injective {s t : Symbol} (h : s.outcome = t.outcome) : s = t := by
  cases s <;> cases t
  · rw [Outcome.byte.inj h]
  · exact nomatch h
  · exact nomatch h
  · rfl

theorem Symbol.read_outcome (s : Symbol) : s.outcome.read = .ok s := by
  cases s <;> rfl

theorem Symbol.isPlain_outcome {s : Symbol} (h : s.isTerminator = false) :
    s.outcome.isPlain = true := by
  cases s with
  | byte b => simpa [outcome, Outcome.isPlain, isTerminator] using h
  | finish => exact absurd h (by decide)

theorem Outcome.eq_of_read {o : Outcome} {s : Symbol} (h : o.read = .ok s) : s.outcome = o := by
  cases o with
  | byte b => rw [← Except.ok.inj h]; rfl
  | finish => rw [← Except.ok.inj h]; rfl
  | fault f => exact nomatch h

theorem Outcome.eq_fault_of_read {o : Outcome} {f : Fault} (h : o.read = .error f) :
    o = .fault f := by
  cases o with
  | byte b => exact nomatch h
  | finish => exact nomatch h
  | fault f' => rw [Except.error.inj h]

namespace Source

/-- The outcome of read number `i`, counted from zero. -/
def outcome (s : Source) (i : Nat) : Outcome := s.getD i .finish

/-- No read has to be tried again. -/
def Uninterrupted (s : Source) : Prop := ∀ f, .fault f ∈ s → f.kind ≠ .interrupted

theorem outcome_drop (s : Source) (k i : Nat) :
    outcome (s.drop k) i = s.outcome (k + i) := by
  simp [outcome, List.getD_eq_getElem?_getD]

theorem Uninterrupted.drop {s : Source} (h : s.Uninterrupted) (k : Nat) :
    Uninterrupted (s.drop k) := fun f hf => h f (List.mem_of_mem_drop hf)

theorem Uninterrupted.outcome {s : Source} (h : s.Uninterrupted) {i : Nat} {f : Fault}
    (hf : s.outcome i = .fault f) : f.kind ≠ .interrupted := by
  refine h f ?_
  rw [Source.outcome, List.getD_eq_getElem?_getD] at hf
  rcases hi : s[i]? with _ | o <;> rw [hi] at hf
  · exact nomatch hf
  · obtain rfl : o = .fault f := hf
    exact List.mem_of_getElem? hi

theorem next_eq {s : Source} (h : ∀ f, s.outcome 0 = .fault f → f.kind ≠ .interrupted) :
    s.next = ((s.outcome 0).read, s.drop 1) := by
  cases s with
  | nil => rfl
  | cons o rest =>
    cases o with
    | byte b => rfl
    | finish => rfl
    | fault f => exact if_neg (h f rfl)

/-! ### Plain bytes -/

theorem outcome_ofBytes (bytes : List UInt8) (i : Nat) :
    (Source.ofBytes bytes).outcome i = (bytes[i]?.map Outcome.byte).getD .finish := by
  rw [outcome, List.getD_eq_getElem?_getD, ofBytes, List.getElem?_map]

theorem outcome_ofBytes_ne_fault (bytes : List UInt8) (i : Nat) (f : Fault) :
    (Source.ofBytes bytes).outcome i ≠ .fault f := by
  rw [outcome_ofBytes]
  cases bytes[i]? <;> exact nofun

theorem uninterrupted_ofBytes (bytes : List UInt8) :
    (Source.ofBytes bytes).Uninterrupted := by
  intro f hf
  simp [ofBytes] at hf

theorem outcome_ofBytes_append {front : List UInt8} {i : Nat} (h : i < front.length)
    (back : List UInt8) :
    (Source.ofBytes (front ++ back)).outcome i = (Source.ofBytes front).outcome i := by
  rw [outcome_ofBytes, outcome_ofBytes, List.getElem?_append_left h]

end Source

namespace Reader

def reading (r : Reader) (source : Source) : Reader := { r with source := source }

/-- What will be consumed next, beginning with the symbol in hand. -/
def ahead (r : Reader) : Nat → Outcome
  | 0 => r.lookahead.outcome
  | i + 1 => r.source.outcome i

end Reader

def Failure.fault? : Failure → Option Fault
  | .unreadable f => some f
  | _ => none

/-- The fault that ended a run, if one did. -/
def faultOf {α : Type} : Except Failure α → Option Fault
  | .ok _ => none
  | .error e => e.fault?

theorem faultOf_eq_some_iff {α : Type} {o : Except Failure α} {f : Fault} :
    faultOf o = some f ↔ o = .error (.unreadable f) := by
  rcases o with e | a
  · cases e <;> simp [faultOf, Failure.fault?]
  · simp [faultOf]

/-- On the way from `r` to `r'`, `k` symbols were consumed and one was read behind each. -/
structure Trace (r : Reader) (k : Nat) (fault : Option Fault) (r' : Reader) : Prop where
  source : r'.source = r.source.drop k
  position : r'.position = ⟨r.position.line, r.position.column + k⟩
  consumed : r'.tally.consumed = r.tally.consumed + k
  /-- The read that failed is not counted. -/
  reads : r'.tally.reads + (if fault.isSome then 1 else 0) = r.tally.reads + k
  plain : ∀ i < k, (r.ahead i).isPlain = true
  lookahead : fault = none → r'.lookahead.outcome = r.ahead k
  met : ∀ f, fault = some f → 0 < k ∧ r.ahead k = .fault f

namespace Trace

variable {r r' r'' : Reader} {k k' : Nat} {fault : Option Fault}

theorem ahead_eq (h : Trace r k none r') (i : Nat) : r'.ahead i = r.ahead (k + i) := by
  cases i with
  | zero => exact h.lookahead rfl
  | succ i =>
    show r'.source.outcome i = r.source.outcome (k + i)
    rw [h.source, Source.outcome_drop]

theorem refl (r : Reader) : Trace r 0 none r :=
  ⟨rfl, rfl, rfl, rfl, fun i hi => absurd hi (Nat.not_lt_zero i), fun _ => rfl,
    fun _ hf => nomatch hf⟩

theorem log (h : Trace r k fault r') (log : Log) : Trace r k fault { r' with log := log } :=
  ⟨h.source, h.position, h.consumed, h.reads, h.plain, h.lookahead, h.met⟩

theorem trans (h : Trace r k none r') (h' : Trace r' k' fault r'') :
    Trace r (k + k') fault r'' where
  source := by rw [h'.source, h.source, List.drop_drop]
  position := by rw [h'.position, h.position, Nat.add_assoc]
  consumed := by rw [h'.consumed, h.consumed, Nat.add_assoc]
  reads := by
    have := h.reads
    have := h'.reads
    simp only [Option.isSome_none, Bool.false_eq_true, if_false] at *
    omega
  plain i hi := by
    by_cases hk : i < k
    · exact h.plain i hk
    · have := h'.plain (i - k) (by omega)
      rwa [h.ahead_eq, show k + (i - k) = i by omega] at this
  lookahead hfault := by rw [h'.lookahead hfault, h.ahead_eq]
  met f hf := by
    obtain ⟨hk, hahead⟩ := h'.met f hf
    exact ⟨by omega, by rw [← h.ahead_eq, hahead]⟩

end Trace

namespace Production

variable {α β : Type}

/-- A run of `p` from `r` consumes `k` symbols, and depends on the outcomes behind them only. -/
structure TracedBy (p : Production α) (r : Reader) (k : Nat) : Prop where
  keeps : Keeps p r
  trace : Trace r k (faultOf (p.run r).1) (p.run r).2
  same : ∀ source : Source, (∀ i < k, source.outcome i = r.source.outcome i) →
    p.run (r.reading source) = ((p.run r).1, (p.run r).2.reading (source.drop k))
  /-- A level that is too deep is given up without a look at the symbol behind its opening. -/
  blind : ∀ n place, (p.run r).1 = .error (.tooDeep n place) →
    0 < k ∧ ∀ source : Source, (∀ i, i + 1 < k → source.outcome i = r.source.outcome i) →
      (∀ f, source.outcome (k - 1) ≠ .fault f) →
        (p.run (r.reading source)).1 = .error (.tooDeep n place)

namespace TracedBy

variable {p : Production α} {f : α → Production β} {r r' : Reader} {k k' : Nat}

/-- A step that neither reads nor consumes. -/
theorem of_reading {o : Except Failure α} (hkeeps : Keeps p r)
    (hrun : ∀ source, p.run (r.reading source) = (o, r'.reading source))
    (hsame : r'.lookahead = r.lookahead ∧ r'.position = r.position ∧ r'.tally = r.tally)
    (ho : ∀ e, o = .error e → (∃ refusal, e = .refused refusal) ∨
      ∃ cause place, e = .arithmetic cause place) : TracedBy p r 0 := by
  obtain ⟨hlookahead, hposition, htally⟩ := hsame
  have hr : p.run r = (o, r'.reading r.source) := hrun r.source
  have hfault : faultOf o = none := by
    rcases o with e | a
    · rcases ho e rfl with ⟨refusal, rfl⟩ | ⟨cause, place, rfl⟩ <;> rfl
    · rfl
  refine ⟨hkeeps, ?_, fun source _ => ?_, fun n place h => ?_⟩
  · rw [hr, hfault]
    refine ⟨rfl, hposition, congrArg Tally.consumed htally, congrArg Tally.reads htally,
      fun i hi => absurd hi (Nat.not_lt_zero i), fun _ => congrArg Symbol.outcome hlookahead,
      fun f hf => nomatch hf⟩
  · rw [hrun, hr]
    rfl
  · rw [hr] at h
    obtain ⟨refusal, he⟩ | ⟨cause, place', he⟩ := ho _ h <;> exact nomatch he

theorem bind_error {e : Failure} (hp : TracedBy p r k) (hrun : p.run r = (.error e, r')) :
    TracedBy (p >>= f) r k := by
  obtain ⟨hkeeps, htrace, hsame, hblind⟩ := hp
  rw [hrun] at htrace hsame hblind
  refine ⟨hkeeps.bind fun a s h => ?_, ?_, fun source hsource => ?_, fun n place h => ?_⟩
  · rw [hrun] at h
    exact nomatch h
  · rw [run_bind_error hrun]
    exact htrace
  · rw [run_bind_error hrun, run_bind_error (hsame source hsource)]
  · rw [run_bind_error hrun] at h
    obtain ⟨hk, hblind⟩ := hblind n place (congrArg Except.error (Except.error.inj h))
    refine ⟨hk, fun source hsource hfault => ?_⟩
    have hp : p.run (r.reading source) =
        (.error (.tooDeep n place), (p.run (r.reading source)).2) :=
      Prod.ext (hblind source hsource hfault) rfl
    rw [run_bind_error hp]

theorem bind_ok {a : α} (hp : TracedBy p r k) (hrun : p.run r = (.ok a, r'))
    (hf : TracedBy (f a) r' k') : TracedBy (p >>= f) r (k + k') := by
  obtain ⟨hkeeps, htrace, hsame, -⟩ := hp
  rw [hrun] at htrace hsame
  have hahead (source : Source) (i : Nat) (h : source.outcome (k + i) = r.source.outcome (k + i)) :
      Source.outcome (source.drop k) i = r'.source.outcome i := by
    rw [htrace.source, Source.outcome_drop, Source.outcome_drop, h]
  refine ⟨hkeeps.bind fun b s h => ?_, ?_, fun source hsource => ?_, fun n place h => ?_⟩
  · rw [hrun] at h
    obtain ⟨rfl, rfl⟩ : a = b ∧ r' = s := by simpa using h
    exact hf.keeps
  · rw [run_bind_ok hrun]
    exact htrace.trans hf.trace
  · rw [run_bind_ok hrun, run_bind_ok (hsame source fun i hi => hsource i (by omega)),
      hf.same _ fun i hi => hahead source i (hsource _ (by omega)), List.drop_drop]
  · rw [run_bind_ok hrun] at h
    obtain ⟨hk, hblind⟩ := hf.blind n place h
    refine ⟨by omega, fun source hsource hfault => ?_⟩
    rw [run_bind_ok (hsame source fun i hi => hsource i (by omega))]
    refine hblind _ (fun i hi => hahead source i (hsource _ (by omega))) fun fault => ?_
    rw [Source.outcome_drop, show k + (k' - 1) = k + k' - 1 by omega]
    exact hfault fault

theorem deeper (hlt : r.depth < r.limit) (h : TracedBy p r.enter k) :
    TracedBy (deeper p) r k := by
  have hrun (source : Source) : (Production.deeper p).run (r.reading source) =
      ((p.run (r.enter.reading source)).1, (p.run (r.enter.reading source)).2.leave) :=
    run_deeper_of_lt hlt
  have hr : (Production.deeper p).run r = ((p.run r.enter).1, (p.run r.enter).2.leave) :=
    run_deeper_of_lt hlt
  refine ⟨.deeper fun _ => h.keeps, ?_, fun source hsource => ?_, fun n place hn => ?_⟩
  · rw [hr]
    exact ⟨h.trace.source, h.trace.position, h.trace.consumed, h.trace.reads, h.trace.plain,
      h.trace.lookahead, h.trace.met⟩
  · rw [hrun, h.same source hsource, hr]
    rfl
  · rw [hr] at hn
    obtain ⟨hk, hblind⟩ := h.blind n place hn
    refine ⟨hk, fun source hsource hfault => ?_⟩
    rw [hrun]
    exact hblind source hsource hfault

end TracedBy

/-! ## Single reads -/

theorem run_prime_eq {r : Reader}
    (h : ∀ f, r.source.outcome 0 = .fault f → f.kind ≠ .interrupted) :
    prime.run r =
      match (r.source.outcome 0).read with
      | .ok s => (.ok (), { r with
          source := r.source.drop 1
          lookahead := s
          tally := { r.tally with reads := r.tally.reads + 1 }
          log := r.log.push (.read s r.position) })
      | .error f => (.error (.unreadable f), { r with source := r.source.drop 1 }) := by
  show r.fetch = _
  rw [Reader.fetch, Source.next_eq h]
  cases (r.source.outcome 0).read <;> rfl

theorem run_advance_eq {r : Reader}
    (h : ∀ f, r.source.outcome 0 = .fault f → f.kind ≠ .interrupted) :
    advance.run r =
      match (r.source.outcome 0).read with
      | .ok s => (.ok r.lookahead, { r.release with
          source := r.source.drop 1
          lookahead := s
          tally := { r.release.tally with reads := r.tally.reads + 1 }
          log := r.release.log.push (.read s r.release.position) })
      | .error f => (.error (.unreadable f), { r.release with source := r.source.drop 1 }) := by
  have hprime := run_prime_eq (r := r.release) h
  show r.advance = _
  rw [Reader.advance, show r.release.fetch = _ from hprime,
    show r.release.source.outcome 0 = r.source.outcome 0 from rfl]
  cases (r.source.outcome 0).read <;> rfl

theorem release_position {r : Reader} (h : r.lookahead.isTerminator = false) :
    r.release.position = ⟨r.position.line, r.position.column + 1⟩ := by
  show r.position.past r.lookahead = _
  rcases hs : r.lookahead with b | _ <;> rw [hs] at h
  · exact if_neg (by simpa [Symbol.isTerminator] using h)
  · exact absurd h (by decide)

namespace TracedBy

variable {r : Reader}

theorem advance (hlookahead : r.lookahead.isTerminator = false)
    (h : ∀ f, r.source.outcome 0 = .fault f → f.kind ≠ .interrupted) :
    TracedBy advance r 1 := by
  have hplain : ∀ i < 1, (r.ahead i).isPlain = true := by
    intro i hi
    obtain rfl : i = 0 := by omega
    exact Symbol.isPlain_outcome hlookahead
  have hposition := release_position hlookahead
  have hrun := run_advance_eq h
  refine ⟨.advance r, ?_, fun source hsource => ?_, fun n place hn => ?_⟩
  · rw [hrun]
    rcases hread : (r.source.outcome 0).read with f | s
    · refine ⟨rfl, hposition, rfl, rfl, hplain, (fun h => nomatch h), fun g hg =>
        ⟨Nat.one_pos, ?_⟩⟩
      obtain rfl : f = g := Option.some.inj hg
      exact Outcome.eq_fault_of_read hread
    · exact ⟨rfl, hposition, rfl, rfl, hplain, fun _ => Outcome.eq_of_read hread,
        fun g hg => nomatch hg⟩
  · have heq : (r.reading source).source.outcome 0 = r.source.outcome 0 := hsource 0 Nat.one_pos
    rw [hrun, run_advance_eq (heq ▸ h), heq]
    cases (r.source.outcome 0).read <;> rfl
  · rw [hrun] at hn
    cases hread : (r.source.outcome 0).read <;> rw [hread] at hn <;> exact nomatch hn

/-- A level that is too deep fails behind the symbol that opens it. -/
theorem advance_overrun {p : Production α} (hlookahead : r.lookahead.isTerminator = false)
    (h : ∀ f, r.source.outcome 0 = .fault f → f.kind ≠ .interrupted) (hle : r.limit ≤ r.depth) :
    TracedBy (Production.advance >>= fun _ => Production.deeper p) r 1 := by
  have hadvance := advance hlookahead h
  rcases hrun : Production.advance.run r with ⟨e | s, r'⟩
  · exact hadvance.bind_error hrun
  obtain ⟨⟨hlimit, hdepth, -⟩, htrace, hsame, -⟩ := hadvance
  rw [hrun] at hlimit hdepth htrace hsame
  have hle' : r'.limit ≤ r'.depth := hlimit ▸ hdepth ▸ hle
  have hdeep (source : Source) : (Production.deeper p).run (r'.reading source) =
      (.error (.tooDeep r.limit r'.position), r'.overrun.2.reading source) := by
    rw [← show r'.limit = r.limit from hlimit]
    exact run_deeper_of_le hle'
  have hr : (Production.deeper p).run r' = (.error (.tooDeep r.limit r'.position), r'.overrun.2) :=
    hdeep r'.source
  refine ⟨(Keeps.advance r).bind fun _ r'' h => .deeper fun hlt => ?_, ?_, fun source hsource => ?_,
    fun n place hn => ⟨Nat.one_pos, fun source _ hfault => ?_⟩⟩
  · rw [hrun] at h
    obtain rfl : r' = r'' := congrArg Prod.snd h
    omega
  · rw [run_bind_ok hrun, hr]
    exact ⟨htrace.source, htrace.position, htrace.consumed, htrace.reads, htrace.plain,
      htrace.lookahead, htrace.met⟩
  · rw [run_bind_ok hrun, run_bind_ok (hsame source hsource), hdeep, hr]
  · rw [run_bind_ok hrun, hr] at hn
    have hrun' := run_advance_eq (r := r.reading source) fun f hf => absurd hf (hfault f)
    have hfst (s : Reader) (h : s.limit ≤ s.depth) : ((Production.deeper p).run s).1 =
        .error (.tooDeep s.limit s.position) := congrArg Prod.fst (run_deeper_of_le h)
    rcases hread : ((r.reading source).source.outcome 0).read with f | s'
    · exact absurd (Outcome.eq_fault_of_read hread) (hfault f)
    · rw [hread] at hrun'
      rw [run_bind_ok hrun', ← hn, htrace.position, ← release_position hlookahead]
      exact hfst _ hle

end TracedBy

/-- From a reader that may go at most `n` levels down, `p` consumes what it has looked at. -/
def Traced (n : Nat) (p _ : Production α) (r : Reader) : Prop :=
  r.source.Uninterrupted → r.limit ≤ r.depth + n → ∃ k, TracedBy p r k

namespace Traced

variable {n : Nat} {p : Production α} {r : Reader}

/-- A step that neither reads nor consumes. -/
theorem of_reading (r' : Reader) (o : Except Failure α) (hkeeps : Keeps p r)
    (hrun : ∀ source, p.run (r.reading source) = (o, r'.reading source))
    (hsame : r'.lookahead = r.lookahead ∧ r'.position = r.position ∧ r'.tally = r.tally)
    (ho : ∀ e, o = .error e → (∃ refusal, e = .refused refusal) ∨
      ∃ cause place, e = .arithmetic cause place) : Traced n p p r :=
  fun _ _ => ⟨0, .of_reading hkeeps hrun hsame ho⟩

theorem bind {f : α → Production β} (hp : Traced n p p r)
    (hf : ∀ a r', p.run r = (.ok a, r') → Traced n (f a) (f a) r') :
    Traced n (p >>= f) (p >>= f) r := by
  intro hsource hn
  obtain ⟨k, hp⟩ := hp hsource hn
  rcases hrun : p.run r with ⟨e | a, r'⟩
  · exact ⟨k, hp.bind_error hrun⟩
  · have htrace := hp.trace
    have hlimit : r'.limit = r.limit := by simpa [hrun] using hp.keeps.limit
    have hdepth : r'.depth = r.depth := by simpa [hrun] using hp.keeps.depth
    rw [hrun] at htrace
    obtain ⟨k', hf⟩ := hf a r' hrun (htrace.source ▸ hsource.drop k) (by omega)
    exact ⟨k + k', hp.bind_ok hrun hf⟩

theorem advance (h : r.lookahead.isTerminator = false) : Traced n advance advance r :=
  fun hsource _ => ⟨1, .advance h fun _ => hsource.outcome⟩

theorem note (record : Record) (r : Reader) :
    Traced n (note fun _ => record) (note fun _ => record) r :=
  of_reading { r with log := r.log.push record } (.ok ()) (.of_tally rfl rfl rfl) (fun _ => rfl)
    ⟨rfl, rfl, rfl⟩ fun _ h => nomatch h

theorem deeper (hlt : r.depth < r.limit) (h : Traced n p p r.enter) :
    Traced (n + 1) (deeper p) (deeper p) r := by
  intro hsource hn
  obtain ⟨k, h⟩ := h hsource (show r.limit ≤ r.depth + 1 + n by omega)
  exact ⟨k, h.deeper hlt⟩

theorem simulation : Simulation (Traced n) where
  pure a r := of_reading r (.ok a) (Keeps.simulation.pure _ _) (fun _ => rfl) ⟨rfl, rfl, rfl⟩
    fun _ h => nomatch h
  bind := bind
  lookahead r := of_reading r (.ok r.lookahead) (Keeps.simulation.lookahead _) (fun _ => rfl)
    ⟨rfl, rfl, rfl⟩ fun _ h => nomatch h
  position r := of_reading r (.ok r.position) (Keeps.simulation.position _) (fun _ => rfl)
    ⟨rfl, rfl, rfl⟩ fun _ h => nomatch h
  tally r := of_reading r (.ok r.tally) (Keeps.simulation.tally _) (fun _ => rfl)
    ⟨rfl, rfl, rfl⟩ fun _ h => nomatch h
  refuse expected r := of_reading r (.error (r.refusal expected)) (Keeps.simulation.refuse _ _)
    (fun _ => rfl) ⟨rfl, rfl, rfl⟩ fun _ h => .inl ⟨_, (Except.error.inj h).symm⟩
  located place x r := by
    have hkeeps := Keeps.simulation.located place x r
    cases x with
    | ok a => exact of_reading r (.ok a) hkeeps (fun _ => rfl) ⟨rfl, rfl, rfl⟩ fun _ h => nomatch h
    | error cause =>
      exact of_reading r (.error (.arithmetic cause place)) hkeeps (fun _ => rfl) ⟨rfl, rfl, rfl⟩
        fun _ h => .inr ⟨_, _, (Except.error.inj h).symm⟩
  note _ _ := note _
  advance _ := advance

/-- Whether the level behind an opening is refused or not, the opening is consumed. -/
theorem opened (hr : r.lookahead.IsOpening) (h : ∀ m, n = m + 1 → ∀ r, Traced m p p r) :
    Traced n (Production.advance >>= fun _ => Production.deeper p)
      (Production.advance >>= fun _ => Production.deeper p) r := by
  intro hsource hn
  have hlookahead := hr.not_isTerminator
  rcases Nat.lt_or_ge r.depth r.limit with hlt | hle
  · obtain ⟨m, rfl⟩ : ∃ m, n = m + 1 := ⟨n - 1, by omega⟩
    refine bind (advance hlookahead) (fun s r' hrun => deeper ?_ (h m rfl r'.enter)) hsource hn
    have hkeeps := Keeps.advance r
    have hlimit : r'.limit = r.limit := by simpa [hrun] using hkeeps.limit
    have hdepth : r'.depth = r.depth := by simpa [hrun] using hkeeps.depth
    omega
  · exact ⟨1, .advance_overrun hlookahead (fun _ => hsource.outcome) hle⟩

variable (d : Dialect)

theorem within (n : Nat) {r : Reader} (hr : r.lookahead.IsOpening) :
    Traced n (Production.advance >>= fun _ => Production.deeper (d.grammar.within n))
      (Production.advance >>= fun _ => Production.deeper (d.grammar.within n)) r := by
  induction n generalizing r with
  | zero => exact opened hr fun m hm => nomatch hm
  | succ n ih =>
    refine opened hr fun m hm r => ?_
    obtain rfl : n = m := Nat.succ.inj hm
    exact @Simulation.expressionOver _ simulation _ _ (fun _ => ih) d r

theorem expression (r : Reader) : Traced n d.grammar.expression d.grammar.expression r := by
  intro hsource _
  obtain ⟨k, h⟩ := @Simulation.expressionOver _ simulation _ _ (fun _ => within d _) d r hsource
    (show r.limit ≤ r.depth + (r.limit - r.depth) by omega)
  exact ⟨k, ⟨h.keeps.limit, h.keeps.depth, h.keeps.deepest⟩, h.trace, h.same, h.blind⟩

theorem inner (r : Reader) (hr : r.lookahead.IsOpening) :
    Traced n (Production.advance >>= fun _ => Production.deeper d.grammar.expression)
      (Production.advance >>= fun _ => Production.deeper d.grammar.expression) r :=
  opened hr fun _ _ => expression d

theorem operand (r : Reader) : Traced n d.grammar.operand d.grammar.operand r :=
  @Simulation.operandOver _ simulation _ _ (inner d) r

theorem addend (r : Reader) : Traced n d.grammar.addend d.grammar.addend r :=
  @Simulation.addendOver _ simulation _ _ (inner d) d r

theorem nextAddend (v : Value) (r : Reader) :
    Traced n (d.grammar.nextAddend v) (d.grammar.nextAddend v) r :=
  @Simulation.sumStep _ simulation _ _ (addend d) v r

end Traced

end Production

end Reckon
