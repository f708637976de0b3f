import Reckon.Proofs.Evaluation.Reads
import Reckon.Proofs.Evaluation.Whole

/-!
# Refused texts

A refusal comes as early as possible and no earlier: what has been consumed can still become a
sentence, and together with the symbol that was found it no longer can.
-/

namespace Reckon

open Production Byte

variable {d : Dialect} {limit : Nat}

/-- Some sentence goes on with `s` behind `before`, or ends there if `s` ends an expression. -/
def CanFollow (d : Dialect) (before : List UInt8) : Symbol → Prop
  | .finish => Sentence d before
  | .byte b => if b = newline then Sentence d before else Viable d (before ++ [b])

theorem sentence_of_canFollow {before : List UInt8} {s : Symbol} (hs : s.isTerminator = true)
    (h : CanFollow d before s) : Sentence d before := by
  cases s with
  | finish => exact h
  | byte b =>
    obtain rfl : b = newline := by simpa [Symbol.isTerminator] using hs
    exact h

theorem run_sentence_ne_refused {line rest : List UInt8} (hline : Sentence d line)
    (hrest : (Symbol.first rest).isTerminator = true) (refusal : Refusal) (r : Reader) :
    d.grammar.evaluation.run (.fresh limit (.ofBytes (line ++ rest))) ≠
      (.error (.refused refusal), r) := by
  obtain ⟨t, rfl⟩ := hline
  intro hrun
  have h := meets_evaluation_yield d limit t hrest
  rw [Meets, hrun] at h
  exact t.walk_limited_ne_refused limit 0 0 refusal h

/-- A run that stops with `b` in hand has not seen what is behind `b`. -/
theorem run_congr {before ahead : List UInt8} {b : UInt8} {e : Failure} {r : Reader}
    (hrun : d.grammar.evaluation.run (.fresh limit (.ofBytes (before ++ b :: ahead))) =
      (.error e, r))
    (hlookahead : r.lookahead = .byte b) (hsource : r.source = .ofBytes ahead)
    (more : List UInt8) :
    ∃ r', d.grammar.evaluation.run (.fresh limit (.ofBytes (before ++ b :: more))) =
      (.error e, r') := by
  obtain ⟨k, hk⟩ := exists_takes d limit (Source.uninterrupted_ofBytes (before ++ b :: ahead))
  have hevaluate : d.grammar.evaluate limit (.ofBytes (before ++ b :: ahead)) = (.error e, r) :=
    hrun
  have hlength : k = (before ++ [b]).length := by
    rw [List.length_append]
    exact hk.length_eq (by rw [hevaluate, hlookahead]) (by rw [hevaluate, hsource])
  have hsame := hk.same (.ofBytes (before ++ b :: more)) fun i hi => by
    rw [hlength] at hi
    rw [List.append_cons, List.append_cons before b ahead, Source.outcome_ofBytes_append hi,
      Source.outcome_ofBytes_append hi]
  rw [hevaluate] at hsame
  exact ⟨_, hsame⟩

theorem not_canFollow_of_refused {before ahead : List UInt8} {refusal : Refusal} {r : Reader}
    {limit' depth : Nat}
    (hrun : d.grammar.evaluation.run (.fresh limit (.ofBytes (before ++ ahead))) =
      (.error (.refused refusal), r))
    (hat : r.At limit' depth before ahead) : ¬ CanFollow d before (.first ahead) := by
  intro hfollow
  by_cases hend : (Symbol.first ahead).isTerminator = true
  · exact run_sentence_ne_refused (sentence_of_canFollow hend hfollow) hend _ _ hrun
  cases ahead with
  | nil => exact hend rfl
  | cons b ahead =>
    have hb : b ≠ newline := by
      rintro rfl
      exact hend rfl
    obtain ⟨more, hmore⟩ : Viable d (before ++ [b]) := by simpa [CanFollow, hb] using hfollow
    have hsentence : Sentence d (before ++ b :: more) := by simpa using hmore
    obtain ⟨r', hrun'⟩ := run_congr hrun hat.lookahead hat.source more
    rw [← List.append_nil (before ++ b :: more)] at hrun'
    exact run_sentence_ne_refused hsentence rfl refusal r' hrun'

/-! ## Where evaluations fail -/

theorem Failure.TrueOf.exists_column {text before : List UInt8} {found : Symbol} {e : Failure}
    (h : e.TrueOf d text before found) :
    ∃ column, e.position? = some ⟨0, column⟩ ∧ column ≤ before.length := by
  cases e with
  | refused refusal => exact ⟨before.length, congrArg some h.2.1, Nat.le_refl _⟩
  | arithmetic cause place =>
    obtain ⟨line, column⟩ := place
    obtain ⟨rfl, hcolumn, -⟩ := h
    exact ⟨column, rfl, hcolumn⟩
  | tooDeep limit place => exact ⟨before.length, congrArg some h, Nat.le_refl _⟩
  | unreadable fault => exact h.elim

/-- A failed evaluation of a text names a place in it. -/
theorem exists_column_of_error {text : List UInt8} {e : Failure}
    (h : (d.evaluate limit (.ofBytes text)).1 = .error e) :
    ∃ column, e.position? = some ⟨0, column⟩ ∧ column ≤ text.length := by
  have hmeets := meets_evaluation d limit text
  obtain ⟨r, hrun⟩ := (evaluate_eq_error_iff d limit _ _).mp h
  rw [Meets, hrun] at hmeets
  obtain ⟨_, _, before, ⟨-, ahead, rfl, -⟩, -, he⟩ := hmeets
  obtain ⟨column, hposition, hcolumn⟩ := he.exists_column
  exact ⟨column, hposition, by rw [List.length_append]; omega⟩

/-- A refusal names the first symbol that cannot follow, and asks for something that can. A text
that is no sentence makes the evaluation fail at that symbol or before it. -/
theorem correct_prefix (d : Dialect) (limit : Nat) (text : List UInt8) :
    (∀ refusal, (d.evaluate limit (.ofBytes text)).1 = .error (.refused refusal) →
      ∃ column, refusal.position = ⟨0, column⟩ ∧ column ≤ text.length ∧
        newline ∉ text.take column ∧ Viable d (text.take column) ∧
        refusal.found = .first (text.drop column) ∧
        ¬ CanFollow d (text.take column) refusal.found ∧
        refusal.expected.TrueOf d (text.take column) refusal.found) ∧
    (¬ Sentence d (firstLine text) →
      ∃ e column, (d.evaluate limit (.ofBytes text)).1 = .error e ∧
        e.position? = some ⟨0, column⟩ ∧ column ≤ (firstLine text).length ∧
        ∀ n, ¬ Viable d ((firstLine text).take n) → column < n) := by
  have hmeets := meets_evaluation d limit text
  constructor
  · intro refusal h
    obtain ⟨r, hrun⟩ := (evaluate_eq_error_iff d limit _ _).mp h
    rw [Meets, hrun] at hmeets
    obtain ⟨_, _, before, ⟨hline, ahead, rfl, hat⟩, hviable, hfound, hposition, hexpected⟩ := hmeets
    rw [hat.lookahead] at hfound hexpected
    have hcan := not_canFollow_of_refused hrun hat
    refine ⟨before.length, hposition, ?_⟩
    rw [List.take_left, List.drop_left, hfound]
    exact ⟨by simp, hline, hviable, rfl, hcan, hexpected⟩
  · intro hsentence
    rcases hresult : (d.evaluate limit (.ofBytes text)).1 with e | v
    · obtain ⟨r, hrun⟩ := (evaluate_eq_error_iff d limit _ _).mp hresult
      rw [Meets, hrun] at hmeets
      obtain ⟨_, _, before, ⟨hline, ahead, rfl, hat⟩, hviable, he⟩ := hmeets
      obtain ⟨column, hposition, hcolumn⟩ := he.exists_column
      rw [firstLine_append hline]
      refine ⟨e, column, rfl, hposition, by simp; omega, fun n hn => ?_⟩
      -- Only a beginning that is longer than what was consumed can be beyond rescue.
      by_contra hle
      refine hn ?_
      rw [List.take_append_of_le_length (by omega)]
      rw [← List.take_append_drop n before] at hviable
      exact hviable.of_append
    · obtain ⟨t, ht, -⟩ := (evaluate_eq_ok_iff d limit text v).mp hresult
      exact absurd ⟨t, ht⟩ hsentence

end Reckon
