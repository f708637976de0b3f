import Reckon.Proofs.Batch.Answers

/-!
# Delivering the answers

A batch hands over its answers one by one, each to its sink, up to the first that does not fit.
-/

namespace Reckon

/-! ## Sinks with room -/

namespace Sink

variable {room : Option (Nat × Fault)} {taken bytes : ByteArray}

/-- A sink that begins with this room takes all of `bytes`. -/
def Fits (room : Option (Nat × Fault)) (bytes : ByteArray) : Prop :=
  ∀ n f, room = some (n, f) → bytes.size ≤ n

/-- The sink that began with this room and has taken `bytes`. -/
def holding (room : Option (Nat × Fault)) (bytes : ByteArray) : Sink :=
  ⟨bytes, room.map fun r => (r.1 - bytes.size, r.2)⟩

theorem extract_append_of_le {a b : ByteArray} {n : Nat} (h : n ≤ a.size) :
    (a ++ b).extract 0 n = a.extract 0 n := by
  rw [ByteArray.extract_append, Nat.sub_eq_zero_of_le h, Nat.zero_sub, ByteArray.extract_same,
    ByteArray.append_empty]

theorem append_extract {a b : ByteArray} {n : Nat} (h : a.size ≤ n) :
    a ++ b.extract 0 (n - a.size) = (a ++ b).extract 0 n := by
  have ha : a.extract 0 n = a := by
    ext1
    simpa using Array.extract_eq_self_of_le h
  rw [ByteArray.extract_append, ha, Nat.zero_sub]

theorem fits_append_left (h : Fits room (taken ++ bytes)) : Fits room taken := by
  intro n f hroom
  have := h n f hroom
  rw [ByteArray.size_append] at this
  omega

theorem write_holding_of_fits (h : Fits room (taken ++ bytes)) :
    (holding room taken).write bytes = (.ok (), holding room (taken ++ bytes)) := by
  rcases room with _ | ⟨n, f⟩
  · rfl
  · have hsize := h n f rfl
    rw [ByteArray.size_append] at hsize
    show (if bytes.size ≤ n - taken.size then _ else _) = _
    rw [if_pos (by omega)]
    simp [holding, ByteArray.size_append, Nat.sub_sub]

theorem write_holding_of_not_fits (htaken : Fits room taken) (h : ¬ Fits room (taken ++ bytes)) :
    ∃ n f, room = some (n, f) ∧ n < (taken ++ bytes).size ∧
      (holding room taken).write bytes =
        (.error f, ⟨(taken ++ bytes).extract 0 n, some (0, f)⟩) := by
  rcases room with _ | ⟨n, f⟩
  · exact absurd (fun n f hroom => nomatch hroom) h
  · have hlt : n < (taken ++ bytes).size := by
      refine Nat.lt_of_not_le fun hle => h fun n' f' hroom => ?_
      obtain ⟨rfl, rfl⟩ : n = n' ∧ f = f' := by simpa using hroom
      exact hle
    refine ⟨n, f, rfl, hlt, ?_⟩
    have hle := htaken n f rfl
    rw [ByteArray.size_append] at hlt
    show (if bytes.size ≤ n - taken.size then _ else _) = _
    rw [if_neg (by omega), ← append_extract hle]
    rfl

end Sink

namespace Batch

variable {d : Dialect} {limit : Nat} {outRoom errRoom : Option (Nat × Fault)}
  {done : List (List UInt8 × Nat)} {s : State}

/-- The answers to the lines `done` were delivered and nothing else was. -/
structure Delivered (d : Dialect) (limit : Nat) (outRoom errRoom : Option (Nat × Fault))
    (done : List (List UInt8 × Nat)) (s : State) : Prop where
  out : s.out = .holding outRoom (outText d limit done)
  err : s.err = .holding errRoom (errText d limit done)
  failed : s.failed = (failures d limit done).length
  outFits : Sink.Fits outRoom (outText d limit done)
  errFits : Sink.Fits errRoom (errText d limit done)

/-- The answers to the lines `done` were delivered, but the answer to `l` did not fit. -/
structure Broken (d : Dialect) (limit : Nat) (outRoom errRoom : Option (Nat × Fault))
    (done : List (List UInt8 × Nat)) (l : List UInt8 × Nat) (fault : Fault) (s : State) :
    Prop where
  outFits : Sink.Fits outRoom (outText d limit done)
  errFits : Sink.Fits errRoom (errText d limit done)
  broken : (∃ n, outRoom = some (n, fault) ∧ n < (outText d limit (done ++ [l])).size ∧
      s.out.written = (outText d limit (done ++ [l])).extract 0 n ∧
      s.err.written = errText d limit done) ∨
    ∃ n, errRoom = some (n, fault) ∧ n < (errText d limit (done ++ [l])).size ∧
      s.err.written = (errText d limit (done ++ [l])).extract 0 n ∧
      s.out.written = outText d limit done

theorem line_of_ok {bytes : List UInt8} (hbytes : bytes ≠ []) {v : Value}
    (h : (d.evaluate limit (.ofBytes bytes)).1 = .ok v) (number : Nat) (s : State) :
    line d limit number bytes s = ((s.out.write (valueLine v).toUTF8).1,
      { s with
        out := (s.out.write (valueLine v).toUTF8).2
        log := s.log ++ (d.evaluate limit (.ofBytes bytes)).2 }) := by
  rw [line, if_neg (by simpa using hbytes)]
  simp only [h]

theorem line_of_error {bytes : List UInt8} (hbytes : bytes ≠ []) {e : Failure}
    (h : (d.evaluate limit (.ofBytes bytes)).1 = .error e) (number : Nat) (s : State) :
    line d limit number bytes s = ((s.err.write (failureLine number e).toUTF8).1,
      { s with
        failed := s.failed + 1
        err := (s.err.write (failureLine number e).toUTF8).2
        log := (s.log ++ (d.evaluate limit (.ofBytes bytes)).2).push (.lineFailed number e) }) := by
  rw [line, if_neg (by simpa using hbytes)]
  simp only [h]

theorem line_delivered (h : Delivered d limit outRoom errRoom done s) {bytes : List UInt8}
    (hbytes : bytes ≠ []) (number : Nat) :
    (∃ s', line d limit number bytes s = (.ok (), s') ∧
        Delivered d limit outRoom errRoom (done ++ [(bytes, number)]) s') ∨
      ∃ fault s', line d limit number bytes s = (.error fault, s') ∧
        Broken d limit outRoom errRoom done (bytes, number) fault s' := by
  obtain ⟨hout, herr, hfailed, houtFits, herrFits⟩ := h
  rcases hrun : (d.evaluate limit (.ofBytes bytes)).1 with e | v
  · have houtText := outText_of_error done number hrun
    have herrText := errText_of_error done number hrun
    have hfailures := failures_of_error done number hrun
    rw [line_of_error hbytes hrun, herr]
    by_cases hfits : Sink.Fits errRoom (errText d limit (done ++ [(bytes, number)]))
    · rw [Sink.write_holding_of_fits (herrText ▸ hfits), ← herrText]
      refine .inl ⟨_, rfl, houtText ▸ hout, rfl, ?_, houtText ▸ houtFits, hfits⟩
      rw [hfailures, List.length_append, ← hfailed]
      rfl
    · rw [herrText] at hfits
      obtain ⟨n, f, hroom, hlt, hwrite⟩ := Sink.write_holding_of_not_fits herrFits hfits
      rw [hwrite]
      refine .inr ⟨f, _, rfl, houtFits, herrFits, .inr ⟨n, hroom, ?_, ?_, ?_⟩⟩
      · rwa [herrText]
      · rw [herrText]
      · exact congrArg Sink.written hout
  · have houtText := outText_of_ok done number hrun
    have herrText := errText_of_ok done number hrun
    have hfailures := failures_of_ok done number hrun
    rw [line_of_ok hbytes hrun, hout]
    by_cases hfits : Sink.Fits outRoom (outText d limit (done ++ [(bytes, number)]))
    · rw [Sink.write_holding_of_fits (houtText ▸ hfits), ← houtText]
      exact .inl ⟨_, rfl, rfl, herrText ▸ herr, hfailures ▸ hfailed, hfits, herrText ▸ herrFits⟩
    · rw [houtText] at hfits
      obtain ⟨n, f, hroom, hlt, hwrite⟩ := Sink.write_holding_of_not_fits houtFits hfits
      rw [hwrite]
      refine .inr ⟨f, _, rfl, houtFits, herrFits, .inl ⟨n, hroom, ?_, ?_, ?_⟩⟩
      · rwa [houtText]
      · rw [houtText]
      · exact congrArg Sink.written herr

/-! ## All lines -/

theorem lines_cons_ok {bytes : List UInt8} {number : Nat} {s' : State}
    (h : line d limit number bytes s = (.ok (), s')) (rest : List (List UInt8)) :
    lines d limit number (bytes :: rest) s = lines d limit (number + 1) rest s' := by
  rw [lines, h]

theorem lines_cons_error {bytes : List UInt8} {number : Nat} {fault : Fault} {s' : State}
    (h : line d limit number bytes s = (.error fault, s')) (rest : List (List UInt8)) :
    lines d limit number (bytes :: rest) s = (.error fault, s') := by
  rw [lines, h]

/-- All answers are delivered, or all up to the first that does not fit. -/
theorem lines_delivered (ls : List (List UInt8)) (number : Nat)
    (h : Delivered d limit outRoom errRoom done s) :
    (∃ s', lines d limit number ls s = (.ok (), s') ∧
        Delivered d limit outRoom errRoom (done ++ numbered number ls) s') ∨
      ∃ front bytes back fault s', ls = front ++ bytes :: back ∧ bytes ≠ [] ∧
        lines d limit number ls s = (.error fault, s') ∧
        Broken d limit outRoom errRoom (done ++ numbered number front)
          (bytes, number + front.length) fault s' := by
  induction ls generalizing number done s with
  | nil => exact .inl ⟨s, rfl, by simpa [numbered] using h⟩
  | cons bytes rest ih =>
    by_cases hbytes : bytes = []
    · subst hbytes
      rw [lines_cons_ok (show line d limit number [] s = (.ok (), s) from rfl), numbered_cons_nil]
      refine (ih (number + 1) h).imp_right ?_
      rintro ⟨front, bytes, back, fault, s', rfl, hbytes, hrun, hbroken⟩
      refine ⟨[] :: front, bytes, back, fault, s', rfl, hbytes, hrun, ?_⟩
      rwa [numbered_cons_nil, List.length_cons, Nat.add_comm front.length, ← Nat.add_assoc]
    rw [numbered_cons_of_ne_nil hbytes]
    rcases line_delivered h hbytes number with ⟨s', hline, h'⟩ | ⟨fault, s', hline, hbroken⟩
    · rw [lines_cons_ok hline, List.append_cons]
      refine (ih (number + 1) h').imp_right ?_
      rintro ⟨front, line, back, fault, s', rfl, hne, hrun, hbroken⟩
      refine ⟨bytes :: front, line, back, fault, s', rfl, hne, hrun, ?_⟩
      rwa [numbered_cons_of_ne_nil hbytes, List.append_cons, List.length_cons,
        Nat.add_comm front.length, ← Nat.add_assoc]
    · refine .inr ⟨[], bytes, rest, fault, s', rfl, hbytes, lines_cons_error hline rest, ?_⟩
      rwa [show numbered number [] = [] from rfl, List.append_nil]

end Batch

end Reckon
