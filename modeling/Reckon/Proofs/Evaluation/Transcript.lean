import Reckon.Proofs.Production.Transcript
import Reckon.Proofs.Reading.At

/-!
# The log of an evaluation

The log of an evaluation tells what was read and consumed, symbol by symbol, and how it ended. A
warning or a result stands at its end, and nowhere else.
-/

namespace Reckon

open Production

/-! ## Parts of a transcript -/

variable {d : Dialect} {limit : Nat} {source : Source} {first : Symbol}
  {advances : List Advance} {records : List Record} {r : Reader}

namespace Transcribed

variable (h : Transcribed source first advances records r)
include h

end Transcribed

end Reckon
