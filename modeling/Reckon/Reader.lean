import Reckon.Log
import Reckon.Source

/-!
# Readers

A reader goes through a source once and keeps exactly one symbol in its hand. It knows its
position, the nesting level and the level it may not pass, and it keeps the log.
-/

namespace Reckon

structure Reader where
  /-- What has not been read yet. -/
  source : Source
  /-- The symbol that was read but not consumed. -/
  lookahead : Symbol
  position : Position
  depth : Nat
  limit : Nat
  tally : Tally
  log : Log

namespace Reader

def fresh (limit : Nat) (source : Source) : Reader where
  source := source
  lookahead := .finish
  position := .start
  depth := 0
  limit := limit
  tally := ⟨0, 0, 0⟩
  log := #[]

/-- Takes the next symbol in hand. A read that fails leaves the old one there and is not counted. -/
def fetch (r : Reader) : Except Failure Unit × Reader :=
  match r.source.next with
  | (.ok symbol, rest) =>
    (.ok (), { r with
      source := rest
      lookahead := symbol
      tally := { r.tally with reads := r.tally.reads + 1 }
      log := r.log.push (.read symbol r.position) })
  | (.error fault, rest) => (.error (.unreadable fault), { r with source := rest })

/-- Lets go of the symbol in hand: the position and the count move on. -/
def release (r : Reader) : Reader :=
  { r with
    position := r.position.past r.lookahead
    tally := { r.tally with consumed := r.tally.consumed + 1 }
    log := r.log.push (.consumed r.lookahead) }

/-- Consumes the symbol in hand, whatever it is, and reads the next one. -/
def advance (r : Reader) : Except Failure Symbol × Reader :=
  let symbol := r.lookahead
  match r.release.fetch with
  | (.ok (), r') => (.ok symbol, r')
  | (.error e, r') => (.error e, r')

def refusal (expected : Expected) (r : Reader) : Failure :=
  .refused ⟨expected, r.lookahead, r.position⟩

/-! ## Nesting -/

def enter (r : Reader) : Reader :=
  { r with
    depth := r.depth + 1
    tally := { r.tally with deepest := max r.tally.deepest (r.depth + 1) } }

def leave (r : Reader) : Reader := { r with depth := r.depth - 1 }

def overrun (r : Reader) : Failure × Reader :=
  (.tooDeep r.limit r.position, { r with log := r.log.push (.limitReached r.limit r.position) })

/-! ## Progress -/

/-- How many symbols are still ahead at most, with the one in hand. -/
def unread (r : Reader) : Nat := r.source.length + (if r.lookahead = .finish then 0 else 1)

theorem fetch_unread_le (r : Reader) : r.fetch.2.unread ≤ r.unread := by
  have hle := r.source.next_length_le
  have hlt := r.source.next_length_lt
  rcases hn : r.source.next with ⟨_ | s, rest⟩ <;> simp only [hn] at hle hlt <;>
    simp only [fetch, hn, unread]
  · omega
  · by_cases hs : s = .finish
    · simp [hs]; omega
    · have := hlt (by simpa using hs)
      simp only [if_neg hs]; omega

/-- A symbol that was consumed never comes back. -/
theorem fetch_unread_lt (r : Reader) (h : r.lookahead ≠ .finish) :
    r.fetch.2.unread < r.unread := by
  have hle := r.source.next_length_le
  have hlt := r.source.next_length_lt
  rcases hn : r.source.next with ⟨_ | s, rest⟩ <;> simp only [hn] at hle hlt <;>
    simp only [fetch, hn, unread, if_neg h]
  · have := hlt (by simp)
    omega
  · by_cases hs : s = .finish
    · simp [hs]; omega
    · have := hlt (by simpa using hs)
      simp only [if_neg hs]; omega

theorem advance_snd (r : Reader) : r.advance.2 = r.release.fetch.2 := by
  rcases h : r.release.fetch with ⟨_ | _, _⟩ <;> simp [advance, h]

theorem advance_unread_le (r : Reader) : r.advance.2.unread ≤ r.unread := by
  rw [advance_snd]
  exact r.release.fetch_unread_le

theorem advance_unread_lt (r : Reader) (h : r.lookahead ≠ .finish) :
    r.advance.2.unread < r.unread := by
  rw [advance_snd]
  exact r.release.fetch_unread_lt h

end Reader

end Reckon
