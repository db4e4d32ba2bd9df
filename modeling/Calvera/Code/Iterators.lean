import Calvera.Code.Consumer
import Calvera.Code.Producer
import Calvera.Lib.Iterator

/-!
# Calvera — the iterators over events

`&mut EventGuard` (`src/consumer/unmanaged.rs`) and `MutBatchIter`
(`src/producer/mod.rs`) as Rust iterators. Both walk from a sequence up to a
last one and yield the event of each; here `next` yields the sequence.

`EventGuard` implements `ExactSizeIterator` and overrides `len`, but not
`size_hint`. `MutBatchIter` overrides `size_hint`.
-/

namespace Calvera

open Calvera.Lib

variable {E : Type}

/-- `EventGuard::len`. -/
def eventGuardLen (sequence available : Int) : Nat := asUnsigned (available - sequence + 1)

/-- `EventGuard { sequence, available }`. -/
@[ext] structure EventGuard where
  sequence : Int
  available : Int
  deriving DecidableEq

namespace EventGuard

/-- `next` of `&mut EventGuard`: the sequence whose event is yielded. -/
def next (guard : EventGuard) : Option (Int × EventGuard) :=
  if guard.sequence > guard.available then none
  else some (guard.sequence, { guard with sequence := guard.sequence + 1 })

/-- `len` of `&mut EventGuard`. -/
def len (guard : EventGuard) : Nat := eventGuardLen guard.sequence guard.available

/-- `size_hint` of `&mut EventGuard`, which is the default. -/
def sizeHint : EventGuard → Nat × Option Nat := defaultSizeHint

end EventGuard

namespace MutBatchIter

/-- `MutBatchIter::remaining`. -/
def remaining (iter : MutBatchIter) : Nat := asUnsigned (iter.last - iter.current + 1)

/-- `size_hint` of `MutBatchIter`. -/
def sizeHint (iter : MutBatchIter) : Nat × Option Nat :=
  let remaining := iter.remaining
  (remaining, some remaining)

end MutBatchIter

/-- The guard the client of a poller holds. -/
def ConsumerPc.openGuard : ConsumerPc → Option EventGuard
  | .guard sequence available => some ⟨sequence, available⟩
  | _ => none

theorem ConsumerPc.openGuard_eq_some {pc : ConsumerPc} {guard : EventGuard} :
    pc.openGuard = some guard ↔ pc = .guard guard.sequence guard.available := by
  cases pc with
  | guard q v =>
    rw [openGuard, Option.some.injEq, ConsumerPc.guard.injEq, EventGuard.ext_iff]
  | _ => simp [openGuard]

theorem EventGuard.next_eq_none {guard : EventGuard} :
    guard.next = none ↔ guard.available < guard.sequence := by
  unfold next
  split <;> simp <;> omega

theorem EventGuard.next_eq_some {guard guard' : EventGuard} {s : Int} :
    guard.next = some (s, guard') ↔
      guard.sequence ≤ guard.available ∧ s = guard.sequence ∧
        guard' = { guard with sequence := guard.sequence + 1 } := by
  unfold next
  split <;> simp <;> grind

/-- What a client that iterates does to the guard. -/
theorem consumerStep_next {R : RingSize} {b : Barrier} {c : Nat} {m : Memory E}
    (guard : EventGuard) :
    consumerStep R b c m (.guard guard.sequence guard.available) .next =
      some (m, .guard (advance EventGuard.next guard).sequence
          (advance EventGuard.next guard).available,
        (guard.next.map fun x => Event.yielded c x.1 (m.slots (R.slot x.1))).toList) := by
  rw [consumerStep]
  split <;> rename_i hgt
  · have hNone := EventGuard.next_eq_none.mpr hgt
    rw [advance_of_none hNone, hNone]
    rfl
  · have hSome := EventGuard.next_eq_some.mpr ⟨Int.not_lt.mp hgt, rfl, rfl⟩
    rw [advance_of_some hSome, hSome]
    rfl

end Calvera
