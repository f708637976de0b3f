import Mathlib.Data.List.DropRight
import Reckon.Source

/-!
# The lines of a text

A text is its finished lines, each with its newline, and what stands behind the last newline. The
reading of a source finds just these lines, and a fault loses the last one.
-/

namespace Reckon

open Byte

/-- Lines one after the other, each with its newline. -/
def closed (lines : List (List UInt8)) : List UInt8 := lines.flatMap (· ++ [newline])

/-- No line has a newline of its own. -/
def AreLines (lines : List (List UInt8)) : Prop := ∀ line ∈ lines, newline ∉ line

variable {line last : List UInt8} {lines : List (List UInt8)}

theorem closed_cons (line : List UInt8) (lines : List (List UInt8)) :
    closed (line :: lines) = line ++ newline :: closed lines := by
  simp [closed]

theorem closed_append (lines more : List (List UInt8)) :
    closed (lines ++ more) = closed lines ++ closed more := List.flatMap_append

theorem exists_eq_closed_append (bytes : List UInt8) :
    ∃ lines last, bytes = closed lines ++ last ∧ AreLines lines ∧ newline ∉ last := by
  induction bytes with
  | nil => exact ⟨[], [], rfl, nofun, nofun⟩
  | cons b bytes ih =>
    obtain ⟨lines, last, rfl, hlines, hlast⟩ := ih
    by_cases hb : b = newline
    · refine ⟨[] :: lines, last, by rw [closed_cons, hb]; rfl, ?_, hlast⟩
      exact List.forall_mem_cons.mpr ⟨nofun, hlines⟩
    · have hcons {line : List UInt8} (hline : newline ∉ line) : newline ∉ b :: line := by
        rw [List.mem_cons, not_or]
        exact ⟨Ne.symm hb, hline⟩
      cases lines with
      | nil => exact ⟨[], b :: last, rfl, hlines, hcons hlast⟩
      | cons line lines =>
        obtain ⟨hline, hlines⟩ := List.forall_mem_cons.mp hlines
        refine ⟨(b :: line) :: lines, last, by simp [closed_cons], ?_, hlast⟩
        exact List.forall_mem_cons.mpr ⟨hcons hline, hlines⟩

theorem count_closed (h : AreLines lines) : (closed lines).count newline = lines.length := by
  induction lines with
  | nil => rfl
  | cons line lines ih =>
    obtain ⟨hline, hlines⟩ := List.forall_mem_cons.mp h
    rw [closed_cons, List.count_append, List.count_cons_self, ih hlines,
      List.count_eq_zero.mpr hline, List.length_cons, Nat.zero_add]

theorem splitOn_closed_append (h : AreLines lines) (rest : List UInt8) :
    (closed lines ++ rest).splitOn newline = lines ++ rest.splitOn newline := by
  induction lines with
  | nil => rfl
  | cons line lines ih =>
    obtain ⟨hline, hlines⟩ := List.forall_mem_cons.mp h
    rw [closed_cons, List.append_assoc, List.cons_append,
      List.splitOn_append_cons_self_of_not_mem hline, ih hlines, List.cons_append]

theorem splitOn_closed_append_of_not_mem (hlines : AreLines lines) (hlast : newline ∉ last) :
    (closed lines ++ last).splitOn newline = lines ++ [last] := by
  rw [splitOn_closed_append hlines, List.splitOn_eq_singleton hlast]

theorem length_splitOn (text : List UInt8) :
    (text.splitOn newline).length = text.count newline + 1 := by
  obtain ⟨lines, last, rfl, hlines, hlast⟩ := exists_eq_closed_append text
  rw [splitOn_closed_append_of_not_mem hlines hlast, List.count_append, count_closed hlines,
    List.count_eq_zero.mpr hlast, List.length_append]
  rfl

/-- These are the lines of `text`. Nothing behind the last newline is no line. -/
def HasLines (text : List UInt8) (lines : List (List UInt8)) : Prop :=
  text.splitOn newline = lines ∨ text.splitOn newline = lines ++ [[]]

theorem hasLines_closed (h : AreLines lines) : HasLines (closed lines) lines := by
  refine .inr ?_
  rw [← List.append_nil (closed lines), splitOn_closed_append_of_not_mem h List.not_mem_nil]

theorem hasLines_closed_append (hlines : AreLines lines) (hlast : newline ∉ last) :
    HasLines (closed lines ++ last) (lines ++ [last]) :=
  .inl (splitOn_closed_append_of_not_mem hlines hlast)

/-! ## Where lines stand -/

/-- A text in front of a line. -/
def EndsLine (before : List UInt8) : Prop := before = [] ∨ before.getLast? = some newline

/-- `line` is a whole line of `text` and `before` stands in front of it. -/
structure IsLine (text before line : List UInt8) : Prop where
  free : newline ∉ line
  front : EndsLine before
  back : ∃ behind, text = before ++ line ++ behind ∧
    (behind = [] ∨ behind.head? = some newline)

theorem endsLine_closed (lines : List (List UInt8)) : EndsLine (closed lines) := by
  rcases List.eq_nil_or_concat lines with rfl | ⟨front, line, rfl⟩
  · exact .inl rfl
  · refine .inr ?_
    simp [closed]

theorem rdropWhile_closed_append (hlast : newline ∉ last) :
    (closed lines ++ last).rdropWhile (· ≠ newline) = closed lines := by
  have hpos : ∀ b ∈ last.reverse, decide (b ≠ newline) = true := by
    intro b hb
    rw [decide_eq_true_eq]
    rintro rfl
    exact hlast (List.mem_reverse.mp hb)
  rw [List.rdropWhile, List.reverse_append, List.dropWhile_append_of_pos hpos]
  rcases endsLine_closed lines with hnil | hend
  · rw [hnil]
    rfl
  · obtain ⟨front, hfront⟩ := List.getLast?_eq_some_iff.mp hend
    simp [hfront]

theorem isLine_of_splitOn {text : List UInt8} {front back : List (List UInt8)}
    (h : text.splitOn newline = front ++ line :: back) :
    AreLines front ∧ IsLine text (closed front) line := by
  obtain ⟨lines, last, rfl, hlines, hlast⟩ := exists_eq_closed_append text
  rw [splitOn_closed_append_of_not_mem hlines hlast] at h
  rcases List.eq_nil_or_concat back with rfl | ⟨back, final, rfl⟩
  · obtain ⟨rfl, hline⟩ := List.append_inj' h rfl
    obtain rfl : last = line := by simpa using hline
    exact ⟨hlines, hlast, endsLine_closed _, [], by simp, .inl rfl⟩
  · have hsplit : front ++ line :: back.concat final = (front ++ line :: back) ++ [final] := by
      simp
    obtain ⟨rfl, hfinal⟩ := List.append_inj' (h.trans hsplit) rfl
    obtain ⟨hfront, hline⟩ := List.forall_mem_append.mp hlines
    obtain ⟨hline, -⟩ := List.forall_mem_cons.mp hline
    refine ⟨hfront, hline, endsLine_closed _, newline :: (closed back ++ last), ?_, .inr rfl⟩
    simp [closed_append, closed_cons]

theorem HasLines.isLine {text : List UInt8} {front back : List (List UInt8)}
    (h : HasLines text (front ++ line :: back)) :
    AreLines front ∧ IsLine text (closed front) line := by
  rcases h with h | h
  · exact isLine_of_splitOn h
  · rw [List.append_assoc, List.cons_append] at h
    exact isLine_of_splitOn h

namespace Source

theorem splitLines_of_not_mem (h : newline ∉ line) (pending : List UInt8)
    (done : List (List UInt8)) (rest : Source) :
    splitLines pending done (ofBytes line ++ rest) =
      splitLines (line.reverse ++ pending) done rest := by
  induction line generalizing pending with
  | nil => rfl
  | cons b line ih =>
    have hb : b ≠ newline := fun hb => h (hb ▸ List.mem_cons_self)
    show splitLines pending done (.byte b :: (ofBytes line ++ rest)) = _
    rw [splitLines, if_neg hb, ih fun hline => h (List.mem_cons_of_mem _ hline)]
    simp

theorem splitLines_closed (h : AreLines lines) (done : List (List UInt8)) (rest : Source) :
    splitLines [] done (ofBytes (closed lines) ++ rest) =
      splitLines [] (lines.reverse ++ done) rest := by
  induction lines generalizing done with
  | nil => rfl
  | cons line lines ih =>
    obtain ⟨hline, hlines⟩ := List.forall_mem_cons.mp h
    have hsplit : ofBytes (closed (line :: lines)) ++ rest =
        ofBytes line ++ .byte newline :: (ofBytes (closed lines) ++ rest) := by
      simp [closed_cons, ofBytes]
    rw [hsplit, splitLines_of_not_mem hline, splitLines, if_pos rfl, ih hlines]
    simp

theorem lines_ofBytes (text : List UInt8) :
    ∃ lines, (ofBytes text).lines = ⟨lines, none⟩ ∧ HasLines text lines := by
  obtain ⟨lines, last, rfl, hlines, hlast⟩ := exists_eq_closed_append text
  have hsplit :
      ofBytes (closed lines ++ last) = ofBytes (closed lines) ++ (ofBytes last ++ []) := by
    simp [ofBytes]
  rw [Source.lines, hsplit, splitLines_closed hlines, splitLines_of_not_mem hlast, splitLines,
    splitLines.closed]
  refine ⟨_, rfl, ?_⟩
  rw [HasLines, splitOn_closed_append_of_not_mem hlines hlast]
  cases last <;> simp

/-- What stands behind the last newline is lost. -/
theorem lines_fault (text : List UInt8) {f : Fault} (hf : f.kind ≠ .interrupted) (more : Source) :
    ∃ lines, Source.lines (ofBytes text ++ .fault f :: more) = ⟨lines, some f⟩ ∧
      HasLines (text.rdropWhile (· ≠ newline)) lines := by
  obtain ⟨lines, last, rfl, hlines, hlast⟩ := exists_eq_closed_append text
  have hsplit : ofBytes (closed lines ++ last) ++ .fault f :: more =
      ofBytes (closed lines) ++ (ofBytes last ++ .fault f :: more) := by
    simp [ofBytes]
  rw [Source.lines, hsplit, splitLines_closed hlines, splitLines_of_not_mem hlast, splitLines,
    if_neg hf, List.append_nil, List.reverse_reverse]
  rw [rdropWhile_closed_append hlast]
  exact ⟨lines, rfl, hasLines_closed hlines⟩

end Source

end Reckon
