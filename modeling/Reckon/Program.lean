import Reckon.Batch
import Reckon.CommandLine.Help

/-!
# The program

What the program does with its arguments, its standard input and the files it can open.
-/

namespace Reckon

structure Answers where
  code : Nat
  stdout : ByteArray
  stderr : ByteArray

namespace Program

def say (text : String) : Answers := ⟨0, text.toUTF8, .empty⟩

def failureCode : Nat := 1

def usageCode : Nat := 2

/-- An error with the fault behind it. -/
def errorReport (context : String) (cause : Fault) : String :=
  "Error: " ++ context ++ "\n\nCaused by:\n    " ++ cause.text ++ "\n"

/-- Evaluates a source line by line and counts what failed. -/
def evaluate (d : Dialect) (limit : Nat) (source : Source) : Answers :=
  match Batch.run d limit source .endless .endless with
  | (.error fault, s) =>
    ⟨failureCode, s.out.written,
      s.err.written ++ (errorReport "can't process input" fault).toUTF8⟩
  | (.ok (), s) =>
    if s.failed = 0 then ⟨0, s.out.written, s.err.written⟩
    else
      let summary := "Error: " ++ Decimal.ofNat s.failed ++ " expression(s) failed\n"
      ⟨failureCode, s.out.written, s.err.written ++ summary.toUTF8⟩

/-- Runs the program. Standard input is read if no input file is named. -/
def run (arguments : List String) (stdin : Source) (openFile : String → Except Fault Source) :
    Answers :=
  match CommandLine.Request.ofArguments arguments with
  | .error e => ⟨usageCode, .empty, e.report⟩
  | .ok (.show flag) => say flag.answer
  | .ok (.evaluate options) =>
    let dialect := options.grammar.getD .usual
    let limit := options.maxDepth.getD defaultLimit
    match options.input with
    | none => evaluate dialect limit stdin
    | some path =>
      match openFile path with
      | .ok source => evaluate dialect limit source
      | .error fault =>
        ⟨failureCode, .empty, (errorReport ("can't open " ++ Quoted.text path) fault).toUTF8⟩

end Program

end Reckon
