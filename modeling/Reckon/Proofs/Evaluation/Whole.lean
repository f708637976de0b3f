import Reckon.Proofs.Reading.Texts

/-!
# Evaluating a whole text

What the readings of expressions say about one evaluation from its start to its end. Only the
first line counts.
-/

namespace Reckon

open Production

/-- The bytes before the first newline, or all of them. -/
def firstLine (text : List UInt8) : List UInt8 := text.takeWhile (· ≠ Byte.newline)

theorem isTerminator_first_drop (text : List UInt8) :
    (Symbol.first (text.dropWhile (· ≠ Byte.newline))).isTerminator = true := by
  cases hrest : text.dropWhile (· ≠ Byte.newline) with
  | nil => rfl
  | cons b rest =>
    have hb := List.head?_dropWhile_not (· ≠ Byte.newline) text
    rw [hrest] at hb
    obtain rfl : b = Byte.newline := by simpa using hb
    rfl

theorem firstLine_append {before : List UInt8} (h : Byte.newline ∉ before) (ahead : List UInt8) :
    firstLine (before ++ ahead) = before ++ firstLine ahead := by
  apply List.takeWhile_append_of_pos
  intro b hb
  rw [decide_eq_true_eq]
  rintro rfl
  exact h hb

theorem firstLine_of_not_mem {text : List UInt8} (h : Byte.newline ∉ text) :
    firstLine text = text := by
  simpa [firstLine] using firstLine_append h []

theorem firstLine_append_of_isTerminator {line rest : List UInt8} (hline : Byte.newline ∉ line)
    (hrest : (Symbol.first rest).isTerminator = true) : firstLine (line ++ rest) = line := by
  rw [firstLine_append hline]
  cases rest with
  | nil => simp [firstLine]
  | cons b rest =>
    obtain rfl : b = Byte.newline := by simpa [Symbol.isTerminator] using hrest
    simp [firstLine]

variable (d : Dialect) (limit : Nat)

theorem evaluate_fst (source : Source) :
    (d.evaluate limit source).1 = (d.grammar.evaluate limit source).1.map Prod.fst := rfl

theorem evaluate_eq_error_iff (source : Source) (e : Failure) :
    (d.evaluate limit source).1 = .error e ↔
      ∃ r, d.grammar.evaluation.run (.fresh limit source) = (.error e, r) := by
  unfold Dialect.evaluate Grammar.evaluate
  rcases d.grammar.evaluation.run (.fresh limit source) with ⟨e' | out, r⟩ <;> simp [Except.map]

/-! ## From trees to outcomes -/

theorem meets_evaluation_yield (t : Tree d .expression) {rest : List UInt8}
    (hrest : (Symbol.first rest).isTerminator = true) :
    d.grammar.evaluation.Meets (.fresh limit (.ofBytes (t.yield ++ rest)))
      (fun out _ => t.walk (Tree.limited limit) 0 0 = .ok out.1.toInt)
      fun e _ => t.walk (Tree.limited limit) 0 0 = .error e := by
  unfold Grammar.evaluation
  rw [meets_bind]
  apply meets_prime
  intro r h
  unfold Grammar.whole
  rw [meets_bind]
  apply meets_ok_mono (reads_expression d limit 0 t r [] rest h (Category.endsAt_terminator hrest))
  rintro v r' ⟨i, hi, rfl, h'⟩
  rw [meets_bind]
  refine meets_requireEnd (by rwa [h'.lookahead]) ?_
  simpa only [meets_bind, meets_tally, meets_note, meets_pure, List.length_nil] using hi

theorem evaluate_yield (t : Tree d .expression) {rest : List UInt8}
    (hrest : (Symbol.first rest).isTerminator = true) :
    (d.evaluate limit (.ofBytes (t.yield ++ rest))).1.map Int64.toInt =
      t.walk (Tree.limited limit) 0 0 := by
  have h := meets_evaluation_yield d limit t hrest
  unfold Meets at h
  unfold Dialect.evaluate Grammar.evaluate
  generalize d.grammar.evaluation.run (.fresh limit (.ofBytes (t.yield ++ rest))) = result at h ⊢
  obtain ⟨e | out, r⟩ := result
  · exact h.symm
  · exact h.symm

/-! ## From outcomes to trees -/

/-- An evaluation that succeeds has read a tree, and one that fails is right about the text. -/
theorem meets_evaluation (text : List UInt8) :
    d.grammar.evaluation.Meets (.fresh limit (.ofBytes text))
      (fun _ _ => ∃ t : Tree d .expression, t.yield = firstLine text ∧ t.nesting ≤ limit)
      (Blames d text) := by
  unfold Grammar.evaluation
  rw [meets_bind]
  apply meets_prime
  intro r h
  have hbehind : r.Behind text limit 0 [] := ⟨by simp, text, rfl, h⟩
  unfold Grammar.whole
  rw [meets_bind]
  apply meets_ok_mono (recognizes_expression d limit 0 text [] r hbehind (.start d))
  rintro v r' ⟨t, ht, h', -⟩
  rw [meets_bind]
  by_cases hend : r'.lookahead.isTerminator = true
  · refine meets_requireEnd hend ?_
    simp only [meets_bind, meets_tally, meets_note, meets_pure]
    obtain ⟨hline, ahead, rfl, hat⟩ := h'
    rw [hat.lookahead] at hend
    exact ⟨t, (firstLine_append_of_isTerminator hline hend).symm, ht⟩
  · have hsentence : Sentence d ([] ++ t.yield) := ⟨t, rfl⟩
    exact meets_requireEnd_of_not (by simpa using hend) (h'.refused hsentence.viable hsentence)

theorem evaluate_eq_ok_iff (text : List UInt8) (v : Value) :
    (d.evaluate limit (.ofBytes text)).1 = .ok v ↔
      ∃ t : Tree d .expression, t.yield = firstLine text ∧ t.nesting ≤ limit ∧ t.Fits ∧
        t.value = some v.toInt := by
  -- On the text of a tree within the limit there is no difference to the tree.
  have hyield (t : Tree d .expression) (ht : t.yield = firstLine text)
      (hnesting : t.nesting ≤ limit) :
      (d.evaluate limit (.ofBytes text)).1.map Int64.toInt = t.evaluate 0 := by
    rw [← List.takeWhile_append_dropWhile (p := (· ≠ Byte.newline)) (l := text), ← firstLine, ← ht,
      evaluate_yield d limit t (isTerminator_first_drop text),
      t.walk_limited_eq_free limit 0 0 0 (by omega)]
    rfl
  constructor
  · intro h
    obtain ⟨t, ht, hnesting⟩ : ∃ t : Tree d .expression, t.yield = firstLine text ∧
        t.nesting ≤ limit := by
      have hmeets := meets_evaluation d limit text
      unfold Meets at hmeets
      unfold Dialect.evaluate Grammar.evaluate at h
      generalize d.grammar.evaluation.run (.fresh limit (.ofBytes text)) = result at h hmeets
      obtain ⟨e | out, r⟩ := result
      · simp [Except.map] at h
      · exact hmeets
    have hvalue := hyield t ht hnesting
    rw [h] at hvalue
    obtain ⟨hfits, hv⟩ := (t.evaluate_eq_ok_iff 0 _).mp hvalue.symm
    exact ⟨t, ht, hnesting, hfits, hv⟩
  · rintro ⟨t, ht, hnesting, hfits, hv⟩
    have hvalue := hyield t ht hnesting
    rw [(t.evaluate_eq_ok_iff 0 _).mpr ⟨hfits, hv⟩] at hvalue
    generalize (d.evaluate limit (.ofBytes text)).1 = result at hvalue
    obtain e | w := result
    · simp [Except.map] at hvalue
    · rw [Int64.toInt_inj.mp (Except.ok.inj hvalue)]

end Reckon
