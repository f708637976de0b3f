import Reckon.Proofs.Reading.At
import Reckon.Proofs.Syntax.Viable

/-!
# Blame

What a failure says about the text. The reader has only consumed bytes that can begin a sentence.
A refusal asks for something that could stand there, and an arithmetic failure names the place
of an operation behind the reader.
-/

namespace Reckon

open Production Byte Exact

variable {d : Dialect} {text before : List UInt8} {limit depth : Nat}

/-- The reader has consumed `before`, the beginning of the first line of `text`. -/
def Reader.Behind (r : Reader) (text : List UInt8) (limit depth : Nat) (before : List UInt8) :
    Prop :=
  newline ∉ before ∧ ∃ ahead, text = before ++ ahead ∧ r.At limit depth before ahead

/-- What was expected could have stood behind `before`. No production ever asks for a digit: an
operand may also begin with a parenthesis. -/
def Expected.TrueOf (d : Dialect) (before : List UInt8) (found : Symbol) : Expected → Prop
  | byte b => Viable d (before ++ [b])
  | operand => (∀ b, IsDigit b → Viable d (before ++ [b])) ∧ Viable d (before ++ [openParen])
  | digit => False
  | literalEnd =>
    (∃ front, before = front ++ [zero] ∧ ∀ b ∈ front.getLast?, ¬ IsDigit b) ∧ found.isDigit = true
  | finish => Sentence d before

def StarIn (d : Dialect) (text : List UInt8) (column : Nat) : Prop :=
  text[column]? = some star ∧ (d = .standard → text[column + 1]? = some star)

def LargeIn (text : List UInt8) (column : Nat) : Prop :=
  (∀ b ∈ (text.take column).getLast?, ¬ IsDigit b) ∧
    (∃ lead ∈ text[column]?, IsDigit lead ∧ lead ≠ zero) ∧
    ¬ InRange (number ((text.drop column).takeWhile fun b => IsDigit b))

/-- An operation that can fail with `cause` stands in this column. -/
def ArithmeticError.ArisesIn (d : Dialect) (text : List UInt8) (column : Nat) :
    ArithmeticError → Prop
  | overflow .literal => LargeIn text column
  | overflow .addition => text[column]? = some plus
  | overflow .subtraction => text[column]? = some minus
  | overflow .power => StarIn d text column
  | negativeExponent exponent => StarIn d text column ∧ exponent < 0

/-- The failure `e` of a reader that has consumed `before` and found `found` behind it. -/
def Failure.TrueOf (d : Dialect) (text before : List UInt8) (found : Symbol) : Failure → Prop
  | refused refusal =>
    refusal.found = found ∧ refusal.position = ⟨0, before.length⟩ ∧
      refusal.expected.TrueOf d before found
  | arithmetic cause place =>
    place.line = 0 ∧ place.column ≤ before.length ∧ cause.ArisesIn d text place.column
  | tooDeep _ place => place = ⟨0, before.length⟩
  | unreadable _ => False

/-- The reader has failed with `e` behind the beginning of a sentence, and `e` is true of it. -/
def Blames (d : Dialect) (text : List UInt8) (e : Failure) (r : Reader) : Prop :=
  ∃ limit depth before, r.Behind text limit depth before ∧ Viable d before ∧
    e.TrueOf d text before r.lookahead

/-! ## Readers behind a beginning of the text -/

namespace Reader.Behind

variable {r : Reader} (h : r.Behind text limit depth before)
include h

theorem position : r.position = ⟨0, before.length⟩ := by
  obtain ⟨_, ahead, _, hat⟩ := h
  exact hat.position

theorem limit_eq : r.limit = limit := by
  obtain ⟨_, ahead, _, hat⟩ := h
  exact hat.limit

theorem depth_eq : r.depth = depth := by
  obtain ⟨_, ahead, _, hat⟩ := h
  exact hat.depth

theorem log (log : Log) : { r with log := log }.Behind text limit depth before := by
  obtain ⟨hline, ahead, htext, hat⟩ := h
  exact ⟨hline, ahead, htext, hat.log log⟩

theorem enter : r.enter.Behind text limit (depth + 1) before := by
  obtain ⟨hline, ahead, htext, hat⟩ := h
  exact ⟨hline, ahead, htext, hat.enter⟩

theorem leave : r.leave.Behind text limit (depth - 1) before := by
  obtain ⟨hline, ahead, htext, hat⟩ := h
  exact ⟨hline, ahead, htext, hat.leave⟩

theorem getElem?_of_lookahead {b : UInt8} (hb : r.lookahead = .byte b) :
    text[before.length]? = some b := by
  obtain ⟨_, ahead, rfl, hat⟩ := h
  obtain ⟨rest, rfl⟩ := Symbol.eq_cons_of_first (hat.lookahead.symm.trans hb)
  simp

theorem getElem?_eq {column : Nat} (hcolumn : column < before.length) :
    text[column]? = before[column]? := by
  obtain ⟨_, ahead, rfl, _⟩ := h
  exact List.getElem?_append_left hcolumn

theorem refused {expected : Expected} (hviable : Viable d before)
    (hexpected : expected.TrueOf d before r.lookahead) : Blames d text (r.refusal expected) r :=
  ⟨limit, depth, before, h, hviable, rfl, h.position, hexpected⟩

theorem arithmetic {cause : ArithmeticError} {column : Nat} (hviable : Viable d before)
    (hcolumn : column ≤ before.length) (hcause : cause.ArisesIn d text column) :
    Blames d text (.arithmetic cause ⟨0, column⟩) r :=
  ⟨limit, depth, before, h, hviable, rfl, hcolumn, hcause⟩

theorem overrun (hviable : Viable d before) : Blames d text r.overrun.1 r.overrun.2 :=
  ⟨limit, depth, before, h.log _, hviable, h.position⟩

end Reader.Behind

theorem Blames.leave {e : Failure} {r : Reader} (h : Blames d text e r) :
    Blames d text e r.leave := by
  obtain ⟨limit, depth, before, hr, hviable, he⟩ := h
  exact ⟨limit, depth - 1, before, hr.leave, hviable, he⟩

/-! ## Single steps -/

namespace Production

variable {r : Reader} {E : Failure → Reader → Prop}

theorem meets_advance_behind {b : UInt8} {Q : Symbol → Reader → Prop}
    (h : r.Behind text limit depth before) (hb : r.lookahead = .byte b) (hne : b ≠ newline)
    (hQ : ∀ r', r'.Behind text limit depth (before ++ [b]) → Q (.byte b) r') :
    advance.Meets r Q E := by
  obtain ⟨hline, ahead, rfl, hat⟩ := h
  obtain ⟨rest, rfl⟩ := Symbol.eq_cons_of_first (hat.lookahead.symm.trans hb)
  refine meets_advance hat hne fun r' hat' => hQ r' ⟨?_, rest, by simp, hat'⟩
  rw [List.mem_append, List.mem_singleton]
  rintro (hmem | rfl)
  · exact hline hmem
  · exact hne rfl

theorem meets_require_behind {b : UInt8} {Q : Unit → Reader → Prop}
    (h : r.Behind text limit depth before) (hne : b ≠ newline)
    (hviable : Viable d (before ++ [b]))
    (hQ : ∀ r', r'.Behind text limit depth (before ++ [b]) → Q () r') :
    (require b).Meets r Q (Blames d text) := by
  by_cases hb : r.lookahead = .byte b
  · unfold require
    simp only [meets_bind, meets_lookahead, if_pos hb]
    exact meets_advance_behind h hb hne hQ
  · exact meets_require_of_ne hb (h.refused hviable.of_append hviable)

end Production

/-! ## Operations that fail -/

theorem Sign.arisesIn {s : Sign} {v w : Value} {cause : ArithmeticError} {column : Nat}
    (h : s.checked v w = .error cause) (hcolumn : text[column]? = some s.byte) :
    cause.ArisesIn d text column := by
  have hexact := s.checked_exact v w
  rw [h] at hexact
  obtain ⟨-, rfl⟩ := (fit_eq_error_iff ..).mp hexact.symm
  cases s <;> exact hcolumn

theorem Value.power_arisesIn {base exponent : Value} {cause : ArithmeticError} {column : Nat}
    (h : base.power exponent = .error cause) (hcolumn : StarIn d text column) :
    cause.ArisesIn d text column := by
  have hexact := power_exact base exponent
  rw [h] at hexact
  rcases raise_eq_error_cases hexact.symm with ⟨hneg, rfl⟩ | rfl
  · rw [Int64.ofInt_toInt]
    exact ⟨hcolumn, Int64.lt_iff_toInt_lt.mpr hneg⟩
  · exact hcolumn

end Reckon
