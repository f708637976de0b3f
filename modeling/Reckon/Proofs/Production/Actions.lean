import Mathlib.Data.List.Basic
import Reckon.Proofs.Production.Limited

/-!
# What a run does to its reader

All that a run does to a reader comes down to a list of four kinds of actions. The list is more
than the reader at its end: it leads through all the readers in between.
-/

namespace Reckon

inductive Action where
  | advance
  | enter
  | leave
  | note (record : Record)
  deriving DecidableEq

namespace Reader

def perform (r : Reader) : Action → Reader
  | .advance => r.advance.2
  | .enter => r.enter
  | .leave => r.leave
  | .note record => { r with log := r.log.push record }

def performAll (r : Reader) (actions : List Action) : Reader := actions.foldl perform r

@[simp]
theorem performAll_nil (r : Reader) : r.performAll [] = r := rfl

theorem performAll_append (r : Reader) (actions more : List Action) :
    r.performAll (actions ++ more) = (r.performAll actions).performAll more :=
  List.foldl_append

theorem performAll_concat (r : Reader) (actions : List Action) (action : Action) :
    r.performAll (actions ++ [action]) = (r.performAll actions).perform action :=
  r.performAll_append actions [action]

/-- The record of a level that was not entered. -/
def overrunNote (r : Reader) : Action := .note (.limitReached r.limit r.position)

theorem overrun_snd (r : Reader) : r.overrun.2 = r.performAll [r.overrunNote] := rfl

end Reader

/-! ## Levels along a list of actions -/

/-- Actions that leave every level they enter and no other, and are never more than `room` levels
down. -/
inductive Orderly : Nat → List Action → Prop
  | nil {room : Nat} : Orderly room []
  | advance {room : Nat} : Orderly room [.advance]
  | note {room : Nat} (record : Record) : Orderly room [.note record]
  | append {room : Nat} {actions more : List Action} (h : Orderly room actions)
    (hmore : Orderly room more) : Orderly room (actions ++ more)
  | nested {room : Nat} {actions : List Action} (h : Orderly room actions) :
    Orderly (room + 1) (.enter :: (actions ++ [.leave]))

namespace Orderly

variable {room : Nat} {actions before : List Action} {r : Reader}

theorem performAll_limit (h : Orderly room actions) (r : Reader) :
    (r.performAll actions).limit = r.limit := by
  induction h generalizing r with
  | nil => rfl
  | advance => exact (Production.Keeps.advance r).limit
  | note record => rfl
  | append _ _ ih ihmore => rw [Reader.performAll_append, ihmore, ih]
  | nested _ ih =>
    rw [← List.cons_append, Reader.performAll_concat]
    exact ih r.enter

theorem performAll_depth (h : Orderly room actions) (r : Reader) :
    (r.performAll actions).depth = r.depth := by
  induction h generalizing r with
  | nil => rfl
  | advance => exact (Production.Keeps.advance r).depth
  | note record => rfl
  | append _ _ ih ihmore => rw [Reader.performAll_append, ihmore, ih]
  | nested _ ih =>
    rw [← List.cons_append, Reader.performAll_concat]
    have hinner := ih r.enter
    show (r.enter.performAll _).depth - 1 = r.depth
    rw [hinner]
    rfl

theorem count_eq (h : Orderly room actions) :
    actions.count .enter = actions.count .leave := by
  induction h with
  | nil => rfl
  | advance => rfl
  | note record => rfl
  | append _ _ ih ihmore => rw [List.count_append, List.count_append, ih, ihmore]
  | nested _ ih => simp [ih]

/-- At no time has a level been left that was not entered, and the levels that were entered and
not left have room. -/
theorem count_prefix (h : Orderly room actions) (hbefore : before <+: actions) :
    before.count .leave ≤ before.count .enter ∧
      before.count .enter ≤ before.count .leave + room := by
  obtain ⟨rest, hrest⟩ := hbefore
  induction h generalizing before rest with
  | nil =>
    obtain ⟨rfl, -⟩ := List.append_eq_nil_iff.mp hrest
    simp
  | advance => rcases List.append_eq_singleton_iff.mp hrest with ⟨rfl, -⟩ | ⟨rfl, -⟩ <;> simp
  | note record => rcases List.append_eq_singleton_iff.mp hrest with ⟨rfl, -⟩ | ⟨rfl, -⟩ <;> simp
  | append h _ ih ihmore =>
    rcases List.append_eq_append_iff.mp hrest with ⟨tail, hfirst, -⟩ | ⟨front, rfl, hmore⟩
    · exact ih tail hfirst.symm
    · have := h.count_eq
      have := ihmore rest hmore.symm
      simp only [List.count_append]
      omega
  | @nested room actions h ih =>
    cases before with
    | nil => simp
    | cons action before =>
      obtain ⟨rfl, htail⟩ := List.cons.inj hrest
      rcases List.append_eq_append_iff.mp htail with ⟨tail, hinner, -⟩ | ⟨front, rfl, hlast⟩
      · have := ih tail hinner.symm
        simp only [List.count_cons_self, List.count_cons_of_ne, ne_eq, reduceCtorEq,
          not_false_eq_true]
        omega
      · have hall := h.count_eq
        have := ih [] (List.append_nil actions)
        rcases List.append_eq_singleton_iff.mp hlast.symm with ⟨rfl, -⟩ | ⟨rfl, -⟩ <;>
          simp [hall]

end Orderly

/-! ## The actions of a run -/

namespace Production

/-- A run of `p` from `r` consists of these actions. -/
inductive Performs : {α : Type} → Production α → Reader → List Action → Prop
  | pure {α : Type} (a : α) (r : Reader) : Performs (pure a : Production α) r []
  | ask {α : Type} (f : Reader → α) (r : Reader) : Performs (ask f) r []
  | fail {α : Type} (f : Reader → Failure) (r : Reader) : Performs (fail f : Production α) r []
  | note (record : Reader → Record) (r : Reader) : Performs (note record) r [.note (record r)]
  | advance (r : Reader) : Performs advance r [.advance]
  | overrun {α : Type} (r : Reader) : Performs (overrun : Production α) r [r.overrunNote]
  | entered {α : Type} {p : Production α} {r : Reader} {actions : List Action}
    (hlimit : r.depth < r.limit) (h : Performs p r.enter actions) :
    Performs (deeper p) r (.enter :: (actions ++ [.leave]))
  | notEntered {α : Type} {p : Production α} {r : Reader} (hlimit : r.limit ≤ r.depth) :
    Performs (deeper p) r [r.overrunNote]
  /-- What follows a failure is not run. -/
  | failed {α β : Type} {p : Production α} {f : α → Production β} {r r' : Reader} {e : Failure}
    {actions : List Action} (hrun : p.run r = (.error e, r')) (h : Performs p r actions) :
    Performs (p >>= f) r actions
  | followed {α β : Type} {p : Production α} {f : α → Production β} {r r' : Reader} {a : α}
    {actions more : List Action} (hrun : p.run r = (.ok a, r')) (h : Performs p r actions)
    (hmore : Performs (f a) r' more) : Performs (p >>= f) r (actions ++ more)
  | expression {g : Grammar} {r : Reader} {actions : List Action}
    (h : Performs (g.within (r.limit - r.depth + 1)) r actions) :
    Performs g.expression r actions

namespace Performs

variable {α : Type} {p : Production α} {r : Reader} {actions : List Action}

theorem run_snd (h : p.Performs r actions) : (p.run r).2 = r.performAll actions := by
  induction h with
  | pure a r => rfl
  | ask f r => rfl
  | fail f r => rfl
  | note record r => rfl
  | advance r => rfl
  | overrun r => rfl
  | entered hlimit _ ih =>
    rw [run_deeper_of_lt hlimit, ← List.cons_append, Reader.performAll_concat]
    exact congrArg Reader.leave ih
  | notEntered hlimit => rw [run_deeper_of_le hlimit, Reader.overrun_snd]
  | failed hrun _ ih => rw [run_bind_error hrun, ← ih, hrun]
  | followed hrun _ _ ih ihmore =>
    rw [run_bind_ok hrun, ihmore, Reader.performAll_append, ← ih, hrun]
  | expression _ ih => exact ih

theorem orderly (h : p.Performs r actions) : Orderly (r.limit - r.depth) actions := by
  induction h with
  | pure a r => exact .nil
  | ask f r => exact .nil
  | fail f r => exact .nil
  | note record r => exact .note _
  | advance r => exact .advance
  | overrun r => exact .note _
  | @entered _ p r actions hlimit _ ih =>
    have hroom : r.limit - r.depth = (r.enter.limit - r.enter.depth) + 1 := by
      show _ = r.limit - (r.depth + 1) + 1
      omega
    rw [hroom]
    exact .nested ih
  | notEntered hlimit => exact .note _
  | failed _ _ ih => exact ih
  | followed hrun hp _ ih ihmore =>
    obtain rfl : _ = _ := (congrArg Prod.snd hrun).symm.trans hp.run_snd
    rw [ih.performAll_limit, ih.performAll_depth] at ihmore
    exact ih.append ihmore
  | expression _ ih => exact ih

/-! ## Every run consists of actions -/

theorem bind {β : Type} {f : α → Production β} (hp : ∃ actions, p.Performs r actions)
    (hf : ∀ a r', p.run r = (.ok a, r') → ∃ actions, (f a).Performs r' actions) :
    ∃ actions, (p >>= f).Performs r actions := by
  obtain ⟨actions, hp⟩ := hp
  rcases hrun : p.run r with ⟨e | a, r'⟩
  · exact ⟨actions, .failed hrun hp⟩
  · obtain ⟨more, hf⟩ := hf a r' hrun
    exact ⟨actions ++ more, .followed hrun hp hf⟩

theorem simulation : Simulation fun p _ r => ∃ actions, p.Performs r actions where
  pure a r := ⟨[], .pure a r⟩
  bind := bind
  lookahead r := ⟨[], .ask _ r⟩
  position r := ⟨[], .ask _ r⟩
  tally r := ⟨[], .ask _ r⟩
  refuse expected r := ⟨[], .fail _ r⟩
  located place x r := by
    cases x with
    | ok a => exact ⟨[], .pure a r⟩
    | error cause => exact ⟨[], .fail _ r⟩
  note _ _ r := ⟨_, .note _ r⟩
  advance r _ := ⟨_, .advance r⟩

theorem exists_map {β : Type} (f : α → β) (h : ∃ actions, p.Performs r actions) :
    ∃ actions, (f <$> p).Performs r actions := by
  rw [map_eq_pure_bind]
  exact bind h fun a r' _ => ⟨[], .pure (f a) r'⟩

theorem exists_require (b : UInt8) (r : Reader) :
    ∃ actions, (require b).Performs r actions := by
  refine bind ⟨[], .ask _ r⟩ fun s r' _ => ?_
  split
  · exact bind ⟨_, .advance r'⟩ fun _ r'' _ => ⟨[], .pure _ r''⟩
  · exact ⟨[], .fail _ r'⟩

theorem exists_deeper (h : r.depth < r.limit → ∃ actions, p.Performs r.enter actions) :
    ∃ actions, (deeper p).Performs r actions := by
  rcases Nat.lt_or_ge r.depth r.limit with hlt | hle
  · obtain ⟨actions, h⟩ := h hlt
    exact ⟨_, .entered hlt h⟩
  · exact ⟨_, .notEntered hle⟩

theorem exists_opening {inner : Production Value}
    (h : ∀ r, ∃ actions, inner.Performs r actions) (r : Reader) (_ : r.lookahead.IsOpening) :
    ∃ actions, (Production.advance >>= fun _ => deeper inner).Performs r actions :=
  bind ⟨_, .advance r⟩ fun _ r' _ => exists_deeper fun _ => h r'.enter

theorem exists_within (d : Dialect) (levels : Nat) (r : Reader) :
    ∃ actions, (d.grammar.within levels).Performs r actions := by
  induction levels generalizing r with
  | zero => exact ⟨_, .overrun r⟩
  | succ levels ih =>
    exact @Simulation.expressionOver _ simulation _ (d.grammar.within levels) (exists_opening ih) d r

theorem exists_expression (d : Dialect) (r : Reader) :
    ∃ actions, d.grammar.expression.Performs r actions := by
  obtain ⟨actions, h⟩ := exists_within d (r.limit - r.depth + 1) r
  exact ⟨actions, .expression h⟩

theorem exists_operand (d : Dialect) (r : Reader) :
    ∃ actions, d.grammar.operand.Performs r actions :=
  @Simulation.operandOver _ simulation _ d.grammar.expression
    (exists_opening (exists_expression d)) r

theorem exists_addend (d : Dialect) (r : Reader) :
    ∃ actions, d.grammar.addend.Performs r actions :=
  @Simulation.addendOver _ simulation _ d.grammar.expression
    (exists_opening (exists_expression d)) d r

theorem exists_nextAddend (d : Dialect) (value : Value) (r : Reader) :
    ∃ actions, (d.grammar.nextAddend value).Performs r actions :=
  @Simulation.sumStep _ simulation _ d.grammar.addend (exists_addend d) value r

end Performs

/-! ## Refusals change nothing -/

end Production

end Reckon
