import Calvera.Code.Event
import Mathlib.Data.List.Nodup

/-!
# Calvera — what both producers share

The four publishing calls of `trait Producer` and the iterator a batch closure
is given (`src/producer/mod.rs`). An update closure is a function on events;
the closure of a batch changes the `k`-th element it is given by `updates k`.
-/

namespace Calvera

variable {E : Type}

/-- A call of `trait Producer` with its arguments; `n` is a `usize`. -/
inductive Op (E : Type) where
  | tryPublish (update : E → E)
  | publish (update : E → E)
  | tryBatchPublish (n : Nat) (updates : Nat → E → E)
  | batchPublish (n : Nat) (updates : Nat → E → E)

namespace Op

/-- The argument of `next_sequences`. -/
def n : Op E → Nat
  | .tryPublish _ | .publish _ => 1
  | .tryBatchPublish n _ | .batchPublish n _ => n

/-- `n as i64`. -/
def nI64 (op : Op E) : Int := asI64 op.n

/-- What the closure does to the `k`-th claimed event. -/
def update : Op E → Nat → E → E
  | .tryPublish update | .publish update => fun _ => update
  | .tryBatchPublish _ updates | .batchPublish _ updates => updates

/-- The call claims with `apply_updates`, not with `apply_update`. -/
def isBatch : Op E → Bool
  | .tryPublish _ | .publish _ => false
  | .tryBatchPublish .. | .batchPublish .. => true

/-- The call repeats `next_sequences` until it succeeds. -/
def spins : Op E → Bool
  | .tryPublish _ | .tryBatchPublish .. => false
  | .publish _ | .batchPublish .. => true

/-- What the call returns after publishing up to `upper`. -/
def success (op : Op E) (upper : Int) : CallResult :=
  if op.spins then .done else .ok upper

/-- What the call returns when `next_sequences` failed. -/
def failure (op : Op E) (missing : Nat) : CallResult :=
  if op.isBatch then .missingFreeSlots missing else .ringBufferFull

/-- `n as i64` is `n`. -/
def InRange (op : Op E) : Prop := op.n < 2 ^ 63

instance (op : Op E) : Decidable op.InRange := inferInstanceAs (Decidable (_ < _))

theorem InRange.nI64 {op : Op E} (h : op.InRange) : op.nI64 = op.n := asI64_of_lt h

theorem n_of_not_isBatch {op : Op E} (h : op.isBatch = false) : op.n = 1 := by
  cases op <;> simp_all [isBatch, n]

theorem nI64_of_not_isBatch {op : Op E} (h : op.isBatch = false) : op.nI64 = 1 := by
  rw [nI64, n_of_not_isBatch h]
  rfl

end Op

/-- `MutBatchIter { current, last }`, both inclusive. -/
structure MutBatchIter where
  current : Int
  last : Int

/-- `MutBatchIter::new`. -/
def MutBatchIter.new (start last : Int) : MutBatchIter := ⟨start, last⟩

/-- `MutBatchIter::next`: the sequence whose slot is yielded. -/
def MutBatchIter.next (iter : MutBatchIter) : Option (Int × MutBatchIter) :=
  if iter.current > iter.last then none
  else some (iter.current, { iter with current := iter.current + 1 })

theorem MutBatchIter.next_eq_none {iter : MutBatchIter} :
    iter.next = none ↔ iter.last < iter.current := by
  unfold MutBatchIter.next
  split <;> simp <;> omega

theorem MutBatchIter.next_eq_some {iter iter' : MutBatchIter} {s : Int} :
    iter.next = some (s, iter') ↔
      iter.current ≤ iter.last ∧ s = iter.current ∧
        iter' = { iter with current := iter.current + 1 } := by
  unfold MutBatchIter.next
  split <;> simp <;> grind

/-- The sequences `lower..=upper`. -/
def seqRange (lower upper : Int) : List Int :=
  (List.range (upper - lower + 1).toNat).map fun i : Nat => lower + i

@[simp] theorem mem_seqRange {lower upper s : Int} :
    s ∈ seqRange lower upper ↔ lower ≤ s ∧ s ≤ upper := by
  simp only [seqRange, List.mem_map, List.mem_range]
  constructor
  · rintro ⟨i, hi, rfl⟩
    omega
  · rintro ⟨hlo, hhi⟩
    exact ⟨(s - lower).toNat, by omega, by omega⟩

theorem length_seqRange (lower upper : Int) :
    (seqRange lower upper).length = (upper - lower + 1).toNat := by
  rw [seqRange, List.length_map, List.length_range]

theorem nodup_seqRange (lower upper : Int) : (seqRange lower upper).Nodup := by
  refine List.Nodup.map (fun i j hij => ?_) List.nodup_range
  omega

theorem seqRange_eq_nil {lower upper : Int} (h : upper < lower) : seqRange lower upper = [] := by
  have hLength : (upper - lower + 1).toNat = 0 := by omega
  rw [seqRange, hLength]
  rfl

/-- Two ranges that meet. -/
theorem seqRange_append {lower mid upper : Int} (hlo : lower ≤ mid + 1) (hhi : mid ≤ upper) :
    seqRange lower mid ++ seqRange (mid + 1) upper = seqRange lower upper := by
  obtain ⟨i, rfl⟩ : ∃ i : Nat, mid = lower + i - 1 := ⟨(mid - lower + 1).toNat, by omega⟩
  obtain ⟨j, rfl⟩ : ∃ j : Nat, upper = lower + i - 1 + j :=
    ⟨(upper - (lower + i - 1)).toNat, by omega⟩
  have hLeft : (lower + (i : Int) - 1 - lower + 1).toNat = i := by omega
  have hRight : (lower + (i : Int) - 1 + j - (lower + i - 1 + 1) + 1).toNat = j := by omega
  have hBoth : (lower + (i : Int) - 1 + j - lower + 1).toNat = i + j := by omega
  simp only [seqRange, hLeft, hRight, hBoth, List.range_add, List.map_append, List.map_map]
  congr 1
  refine List.map_congr_left fun k _ => ?_
  simp only [Function.comp_apply]
  omega

theorem seqRange_self (s : Int) : seqRange s s = [s] := by
  simp [seqRange]

theorem seqRange_cons {lower upper : Int} (h : lower ≤ upper) :
    seqRange lower upper = lower :: seqRange (lower + 1) upper := by
  rw [← seqRange_append (by omega : lower ≤ lower + 1) h, seqRange_self]
  rfl

namespace Memory

/-- Store to, or successfully exchange, the cursor of the producer barrier. -/
def setCursor (m : Memory E) (sequence : Int) : Memory E := { m with cursor := sequence }

/-- Store to `shutdown_at_sequence`. -/
def storeShutdown (m : Memory E) (sequence : Int) : Memory E :=
  { m with shutdownAtSequence := sequence }

end Memory

end Calvera
