/-!
# Control sequences

Text for a terminal holds control sequences. An escape byte starts one, and the bytes behind it
say how long it is. Where no terminal reads the text, the sequences and all other controls are
taken out, up to the blank ones.
-/

namespace Reckon.Control

/-- What the bytes so far have begun. -/
inductive Place where
  | text
  /-- A character with so many bytes still to come. -/
  | character (missing : Nat)
  | escape
  | escapeDetail
  /-- A sequence with parameters, which ends with its first letter. -/
  | parameters
  | deviceStart
  | deviceNumbers
  | deviceDetail
  /-- A string for the device. -/
  | device
  /-- A string for the window, which a bell ends as well. -/
  | window
  deriving DecidableEq, Repr

def isBlank (b : UInt8) : Bool := b = 9 || b = 10 || b = 12 || b = 13 || b = 32

/-- Bytes that follow the first byte of a character of several bytes. -/
def following? (b : UInt8) : Option Nat :=
  if 0xc2 ≤ b ∧ b ≤ 0xdf then some 1
  else if 0xe0 ≤ b ∧ b ≤ 0xef then some 2
  else if 0xf0 ≤ b ∧ b ≤ 0xf4 then some 3
  else none

/-- Where the byte leads, if it leads anywhere, and whether it is shown. -/
def step (place : Place) (b : UInt8) : Option Place × Bool :=
  if b = 0x18 ∨ b = 0x1a then (some .text, false)
  else if b = 0x1b then (some .escape, false)
  else match place with
    | .text =>
      if b < 0x20 then (none, isBlank b)
      else if b < 0x7f then (none, true)
      else match following? b with
        | some n => (some (.character n), true)
        | none => (none, false)
    | .character n => (some (if n ≤ 1 then .text else .character (n - 1)), true)
    | .escape =>
      if b < 0x20 then (none, isBlank b)
      else if b < 0x30 then (some .escapeDetail, false)
      else if b = 0x50 then (some .deviceStart, false)
      else if b = 0x58 ∨ b = 0x5e ∨ b = 0x5f then (some .device, false)
      else if b = 0x5b then (some .parameters, false)
      else if b = 0x5d then (some .window, false)
      else (if b < 0x7f then some .text else none, false)
    | .escapeDetail =>
      if b < 0x20 then (none, isBlank b)
      else (if 0x30 ≤ b ∧ b < 0x7f then some .text else none, false)
    | .parameters =>
      if b < 0x20 then (none, isBlank b)
      else (if 0x40 ≤ b ∧ b < 0x7f then some .text else none, false)
    | .deviceStart =>
      if b < 0x20 ∨ 0x7f ≤ b then (none, false)
      else if b < 0x30 then (some .deviceDetail, false)
      else (some (if b < 0x40 then .deviceNumbers else .device), false)
    | .deviceNumbers =>
      if b < 0x20 ∨ 0x7f ≤ b then (none, false)
      else if b < 0x30 then (some .deviceDetail, false)
      else (if b < 0x3c then none else some .device, false)
    | .deviceDetail => (if 0x30 ≤ b ∧ b < 0x7f then some .device else none, false)
    | .device => (if b = 0x9c then some .text else none, false)
    | .window => (if b = 0x07 then some .text else none, false)

/-- A byte that is shown turns the showing on, also a blank inside of a sequence. It stays on
until a byte that is no text. -/
def plainFrom (showing : Bool) (place : Place) : List UInt8 → List UInt8
  | [] => []
  | b :: rest =>
    let inText := match place with
      | .character _ => false
      | _ => showing
    let (next, shown) := step (if inText then .text else place) b
    let place := next.getD place
    if shown then b :: plainFrom true place rest
    else if inText then plainFrom false ((step place b).1.getD place) rest
    else plainFrom false place rest

def plain (bytes : List UInt8) : List UInt8 := plainFrom false .text bytes

/-- The text in the colour of things that are wrong. -/
def highlight (s : String) : String := "\x1b[33m" ++ s ++ "\x1b[0m"

end Reckon.Control
