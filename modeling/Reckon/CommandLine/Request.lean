import Reckon.CommandLine.Number
import Reckon.Dialect
import Reckon.Text.Control

/-!
# Requests

The arguments of the command line say what to do: evaluate with some options, or show the help or
the version. Arguments are taken in order. An option and its value are checked when the next
option comes or when the arguments are over, but an argument that has no meaning at all is
reported at once.
-/

namespace Reckon.CommandLine

open Control (highlight)

inductive Setting where
  | grammar
  | maxDepth
  | input
  deriving DecidableEq, Repr

inductive Flag where
  | help
  | version
  deriving DecidableEq, Repr

def Setting.long : Setting → String
  | .grammar => "grammar"
  | .maxDepth => "max-depth"
  | .input => "input"

def Setting.valueName : Setting → String
  | .grammar => "GRAMMAR"
  | .maxDepth => "MAX_DEPTH"
  | .input => "INPUT"

def Setting.usage (s : Setting) : String := "--" ++ s.long ++ " <" ++ s.valueName ++ ">"

def Flag.long : Flag → String
  | .help => "help"
  | .version => "version"

def Flag.usage (f : Flag) : String := "--" ++ f.long

inductive Choice where
  | setting (s : Setting)
  | flag (f : Flag)

def Choice.ofLong? (name : String) : Option Choice :=
  if name = Setting.grammar.long then some (.setting .grammar)
  else if name = Setting.maxDepth.long then some (.setting .maxDepth)
  else if name = Setting.input.long then some (.setting .input)
  else if name = Flag.help.long then some (.flag .help)
  else if name = Flag.version.long then some (.flag .version)
  else none

def Choice.ofShort? : Char → Option Choice
  | 'g' => some (.setting .grammar)
  | 'd' => some (.setting .maxDepth)
  | 'i' => some (.setting .input)
  | 'h' => some (.flag .help)
  | 'V' => some (.flag .version)
  | _ => none

structure Options where
  grammar : Option Dialect
  maxDepth : Option Nat
  input : Option String
  deriving DecidableEq

def Options.none : Options := ⟨Option.none, Option.none, Option.none⟩

inductive Request where
  | evaluate (options : Options)
  | show (flag : Flag)

inductive UsageError where
  | unexpected (argument : String)
  | missingValue (setting : Setting)
  | invalidValue (setting : Setting) (value reason : String)
  | repeated (setting : Setting)
  | unwantedValue (flag : Flag) (value : String)

/-- What is wrong, for a terminal. Words of the user are highlighted. -/
def UsageError.text : UsageError → String
  | .unexpected argument => "unexpected argument '" ++ highlight argument ++ "' found"
  | .missingValue setting =>
    "a value is required for '" ++ setting.usage ++ "' but none was supplied"
  | .invalidValue setting value reason =>
    "invalid value '" ++ highlight value ++ "' for '" ++ setting.usage ++ "': " ++ reason
  | .repeated setting => "the argument '" ++ setting.usage ++ "' cannot be used multiple times"
  | .unwantedValue flag value =>
    "unexpected value '" ++ highlight value ++ "' for '" ++ flag.usage ++
      "' found; no more were expected"

/-! ## Values -/

/-- Sets an option. It may be set once, and this is checked before the value is looked at. -/
def Options.set (o : Options) (value : String) : Setting → Except UsageError Options
  | .grammar =>
    if o.grammar.isSome then .error (.repeated .grammar)
    else match Dialect.ofName? value with
      | some d => .ok { o with grammar := some d }
      | .none => .error (.invalidValue .grammar value (Dialect.unknown value))
  | .maxDepth =>
    if o.maxDepth.isSome then .error (.repeated .maxDepth)
    else match readCount value with
      | .ok n => .ok { o with maxDepth := some n }
      | .error e => .error (.invalidValue .maxDepth value e.text)
  | .input =>
    if o.input.isSome then .error (.repeated .input)
    -- No file has an empty name.
    else if value.isEmpty then .error (.missingValue .input)
    else .ok { o with input := some value }

/-- An option whose value is not settled yet. -/
inductive Pending where
  | nothing
  | awaiting (setting : Setting)
  | given (setting : Setting) (value : String)

def Options.settle (o : Options) : Pending → Except UsageError Options
  | .nothing => .ok o
  | .awaiting setting => .error (.missingValue setting)
  | .given setting value => o.set value setting

/-! ## Arguments -/

inductive Argument where
  /-- Two dashes alone: what follows is no option. -/
  | separator
  | long (name : String) (value : Option String)
  | short (letter : Char) (rest : List Char)
  | plain

/-- A single dash is plain. -/
def Argument.ofString (s : String) : Argument :=
  match s.toList with
  | ['-', '-'] => .separator
  | '-' :: '-' :: rest =>
    let name := rest.takeWhile (· ≠ '=')
    .long (String.ofList name) <|
      match rest.dropWhile (· ≠ '=') with
      | [] => none
      | _ :: value => some (String.ofList value)
  | '-' :: letter :: rest => .short letter rest
  | _ => .plain

/-- The value that is written together with a short option. One equals sign before it is
dropped. -/
def attached? : List Char → Option String
  | [] => none
  | '=' :: value => some (String.ofList value)
  | value => some (String.ofList value)

/-- Takes the option that was read, with its attached value if it has one. -/
def choose (o : Options) (pending : Pending) (choice : Choice) (value : Option String) :
    Except UsageError (Options × Pending ⊕ Flag) :=
  match choice, value with
  | .setting setting, some value => do
    let o ← o.settle pending
    let o ← o.set value setting
    return .inl (o, .nothing)
  | .setting setting, none => do
    let o ← o.settle pending
    return .inl (o, .awaiting setting)
  | .flag flag, some value => .error (.unwantedValue flag value)
  | .flag flag, none => do
    let _ ← o.settle pending
    return .inr flag

def Request.read (o : Options) (pending : Pending) : List String → Except UsageError Request
  | [] => do
    let o ← o.settle pending
    return .evaluate o
  | argument :: rest =>
    match Argument.ofString argument with
    | .separator =>
      match rest with
      | [] => do
        let o ← o.settle pending
        return .evaluate o
      | next :: _ => .error (.unexpected next)
    | .long name value =>
      match Choice.ofLong? name with
      | none => .error (.unexpected ("--" ++ name))
      | some choice =>
        match choose o pending choice value with
        | .error e => .error e
        | .ok (.inr flag) => .ok (.show flag)
        | .ok (.inl (o, pending)) => read o pending rest
    | .short letter letters =>
      match Choice.ofShort? letter with
      | none => .error (.unexpected ("-" ++ String.singleton letter))
      | some (.flag flag) =>
        -- What follows the letter of a flag is not looked at any more.
        match o.settle pending with
        | .error e => .error e
        | .ok _ => .ok (.show flag)
      | some (.setting setting) =>
        match choose o pending (.setting setting) (attached? letters) with
        | .error e => .error e
        | .ok (.inr flag) => .ok (.show flag)
        | .ok (.inl (o, pending)) => read o pending rest
    | .plain =>
      match pending with
      | .awaiting setting => read o (.given setting argument) rest
      | _ => .error (.unexpected argument)

def Request.ofArguments (arguments : List String) : Except UsageError Request :=
  read .none .nothing arguments

end Reckon.CommandLine
