import Reckon.Grammar

/-!
# Sessions

A session drives a reader step by step and reports on each step. Steps name their grammars, so
that a session is plain data.
-/

namespace Reckon

inductive Step (γ : Type) where
  | look
  | advance
  | require (b : UInt8)
  | requireEnd
  /-- Asks for the failure the reader would give, without failing. -/
  | describe (expected : Expected)
  | literal
  | expression (grammar : γ)
  | addend (grammar : γ)
  | operand (grammar : γ)
  | nextAddend (grammar : γ) (value : Value)
  | deeper (steps : List (Step γ))

/-- What a step gives if it does not fail. -/
inductive Answer where
  | done
  | seen (symbol : Symbol)
  | consumed (symbol : Symbol)
  | failure (failure : Failure)
  | value (value : Value)
  | missing

/-- What can be seen of a reader. -/
structure View where
  lookahead : Symbol
  position : Position
  depth : Nat
  tally : Tally

def Reader.view (r : Reader) : View := ⟨r.lookahead, r.position, r.depth, r.tally⟩

inductive Report where
  | step (outcome : Except Failure Answer) (view : View)
  /-- A step of steps. The reports of those that were taken come with it. -/
  | steps (outcome : Except Failure Answer) (taken : List Report) (view : View)

def Report.outcome : Report → Except Failure Answer
  | .step outcome _ => outcome
  | .steps outcome _ _ => outcome

namespace Session

variable {γ : Type}

def report (p : Production Answer) (r : Reader) : Report × Reader :=
  let (outcome, r') := p.run r
  (.step outcome r'.view, r')

mutual

def take (grammars : γ → Grammar) : Step γ → Reader → Report × Reader
  | .look, r => report (.seen <$> Production.lookahead) r
  | .advance, r => report (.consumed <$> Production.advance) r
  | .require b, r => report ((fun _ => .done) <$> Production.require b) r
  | .requireEnd, r => report ((fun _ => .done) <$> Production.requireEnd) r
  | .describe expected, r => report (.failure <$> Production.ask (Reader.refusal expected)) r
  | .literal, r => report (.value <$> Reckon.literal) r
  | .expression g, r => report (.value <$> (grammars g).expression) r
  | .addend g, r => report (.value <$> (grammars g).addend) r
  | .operand g, r => report (.value <$> (grammars g).operand) r
  | .nextAddend g value, r =>
    report ((fun sum => sum.elim .missing .value) <$> (grammars g).nextAddend value) r
  | .deeper steps, r =>
    if r.limit ≤ r.depth then
      let (failure, r') := r.overrun
      (.steps (.error failure) [] r'.view, r')
    else
      let (outcome, taken, r') := takeUntilFailure grammars steps r.enter
      (.steps outcome taken r'.leave.view, r'.leave)

/-- Takes steps in order. The first that fails is the last that is taken. -/
def takeUntilFailure (grammars : γ → Grammar) :
    List (Step γ) → Reader → Except Failure Answer × List Report × Reader
  | [], r => (.ok .done, [], r)
  | step :: steps, r =>
    let (first, r') := take grammars step r
    match first.outcome with
    | .error failure => (.error failure, [first], r')
    | .ok _ =>
      let (outcome, taken, r'') := takeUntilFailure grammars steps r'
      (outcome, first :: taken, r'')

end

/-- Takes all steps in order, also after one that failed. -/
def play (grammars : γ → Grammar) : List (Step γ) → Reader → List Report × Reader
  | [], r => ([], r)
  | step :: steps, r =>
    let (first, r') := take grammars step r
    let (others, r'') := play grammars steps r'
    (first :: others, r'')

end Session

end Reckon
