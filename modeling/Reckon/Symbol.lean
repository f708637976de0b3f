import Reckon.Position
import Reckon.Text.Escape

/-! # Input symbols -/

namespace Reckon

/-- What one read of the input gives: a byte, or the news that the input is over. -/
inductive Symbol where
  | byte (b : UInt8)
  | finish
  deriving DecidableEq, Repr

/-! ## The alphabet -/

namespace Byte

abbrev newline : UInt8 := 10
abbrev openParen : UInt8 := 40
abbrev closeParen : UInt8 := 41
abbrev star : UInt8 := 42
abbrev plus : UInt8 := 43
abbrev minus : UInt8 := 45
abbrev zero : UInt8 := 48
abbrev nine : UInt8 := 57

end Byte

namespace Symbol

abbrev openParen : Symbol := .byte Byte.openParen
abbrev closeParen : Symbol := .byte Byte.closeParen
abbrev star : Symbol := .byte Byte.star
abbrev plus : Symbol := .byte Byte.plus
abbrev minus : Symbol := .byte Byte.minus

def digit? : Symbol → Option Nat
  | .byte b => if Byte.zero ≤ b ∧ b ≤ Byte.nine then some (b.toNat - 48) else none
  | .finish => none

def isDigit (s : Symbol) : Bool := s.digit?.isSome

/-- A newline ends an expression just as the end of the input does. -/
def isTerminator (s : Symbol) : Bool := s = .finish || s = .byte Byte.newline

def text : Symbol → String
  | .byte b => "'" ++ String.ofList (Escape.byte b) ++ "'"
  | .finish => "end of input"

end Symbol

/-- The position after `s`. The end of the input takes no room. -/
def Position.past (p : Position) : Symbol → Position
  | .byte b => if b = Byte.newline then ⟨p.line + 1, 0⟩ else ⟨p.line, p.column + 1⟩
  | .finish => p

end Reckon
