import Calvera.Code.Barrier

/-!
# Calvera — the ring buffer and the bitfield, as they are constructed

`RingBuffer` (`src/ring_buffer.rs`) and `MultiProducerBarrier`
(`src/producer/multi.rs`) with the masks and shifts that their constructors
derive from the size. The boxed slices are accessed with `get_unchecked`: here
an access outside the slice gives `none`.

The threads of a disruptor are modelled over `RingSize` and `Memory`;
`RingBuffer.new_init` and `MultiProducerBarrier.new_init` say that this is what
the constructors set up.
-/

namespace Calvera

open Calvera.Lib

variable {T : Type}

/-- `RingBuffer<T>`. -/
structure RingBuffer (T : Type) where
  slots : Array T
  indexMask : Int

namespace RingBuffer

/-- `RingBuffer::new`, which panics unless the size is a power of two; call
number `i` of `event_source` returns `eventSource i`. -/
def new (size : Nat) (eventSource : Nat → T) : Option (RingBuffer T) :=
  if size.isPowerOfTwo then
    some
      { slots := (Array.range size).map eventSource
        indexMask := asI64 (size - 1) }
  else none

variable (ringBuffer : RingBuffer T)

/-- `(sequence & self.index_mask) as usize`. -/
def index (sequence : Int) : Nat := asUnsigned (andI64 sequence ringBuffer.indexMask)

/-- The slot `RingBuffer::get` points to. -/
def get (sequence : Int) : Option T := ringBuffer.slots[ringBuffer.index sequence]?

/-- The slot `RingBuffer::get_ref` points to. -/
def getRef (sequence : Int) : Option T := ringBuffer.slots[ringBuffer.index sequence]?

end RingBuffer

/-- `MultiProducerBarrier`. -/
structure MultiProducerBarrier where
  cursor : Int
  available : Array (BitVec 64)
  indexMask : Nat
  indexShift : Nat

namespace MultiProducerBarrier

/-- `MultiProducerBarrier::new`, which asserts that there are at least 64 slots. -/
def new (size : Nat) : Option MultiProducerBarrier :=
  if size ≥ 64 then
    let i64Needed := size / 64
    let allOnes := ~~~0#64
    some
      { cursor := NONE
        available := (Array.range i64Needed).map fun _ => allOnes
        indexMask := size - 1
        indexShift := Nat.log2 size }
  else none

variable (barrier : MultiProducerBarrier)

/-- `MultiProducerBarrier::slot_index`. -/
def slotIndex (sequence : Int) : Nat := asUnsigned sequence &&& barrier.indexMask

/-- `MultiProducerBarrier::calculate_availability_indices`. -/
def calculateAvailabilityIndices (sequence : Int) : Nat × Nat :=
  let slotIndex := barrier.slotIndex sequence
  let availabilityIndex := slotIndex >>> 6
  let bitIndex := slotIndex - availabilityIndex * 64
  (availabilityIndex, bitIndex)

/-- `MultiProducerBarrier::calculate_availability_flag`. -/
def calculateAvailabilityFlag (sequence : Int) : BitVec 64 :=
  let round := BitVec.ofInt 64 (sequence >>> barrier.indexShift)
  round &&& 1#64

/-- The word `MultiProducerBarrier::availability_at` refers to. -/
def availabilityAt (index : Nat) : Option (BitVec 64) := barrier.available[index]?

end MultiProducerBarrier

-- ---------------------------------------------------------------------------
-- The sizes the constructors accept
-- ---------------------------------------------------------------------------

variable {size : Nat} {eventSource : Nat → T}

theorem RingBuffer.new_eq_some {ringBuffer : RingBuffer T} :
    RingBuffer.new size eventSource = some ringBuffer ↔
      size.isPowerOfTwo ∧
        ringBuffer = ⟨(Array.range size).map eventSource, asI64 (size - 1)⟩ := by
  unfold new
  split <;> rename_i hSize <;> simp [hSize, eq_comm]

theorem MultiProducerBarrier.new_eq_some {barrier : MultiProducerBarrier} :
    MultiProducerBarrier.new size = some barrier ↔
      64 ≤ size ∧ barrier =
        ⟨NONE, (Array.range (size / 64)).map fun _ => ~~~0#64, size - 1, Nat.log2 size⟩ := by
  unfold new
  split <;> rename_i hSize <;> simp [hSize, eq_comm]

/-- A power of two that a `usize` can hold. -/
theorem exists_exponent (hSize : size < 2 ^ 64) (hPower : size.isPowerOfTwo) :
    ∃ e, e ≤ 63 ∧ size = 2 ^ e := by
  obtain ⟨e, rfl⟩ := hPower
  have := (Nat.pow_lt_pow_iff_right Nat.one_lt_two).mp hSize
  exact ⟨e, by omega, rfl⟩

theorem RingSize.isPowerOfTwo (R : RingSize) : R.size.isPowerOfTwo := ⟨R.exponent, rfl⟩

/-- The `RingSize`s are the sizes `RingBuffer::new` accepts, but for the largest. -/
theorem RingSize.exists_iff :
    (∃ R : RingSize, R.size = size) ↔
      (RingBuffer.new size eventSource).isSome ∧ size ≤ 2 ^ 62 := by
  simp only [Option.isSome_iff_exists, RingBuffer.new_eq_some, exists_and_left, exists_eq,
    and_true]
  constructor
  · rintro ⟨R, rfl⟩
    exact ⟨R.isPowerOfTwo, R.size_le⟩
  · rintro ⟨⟨e, rfl⟩, hLe⟩
    exact ⟨⟨e, (Nat.pow_le_pow_iff_right Nat.one_lt_two).mp hLe⟩, rfl⟩

/-- Of these, `MultiProducerBarrier::new` accepts the `MultiRingSize`s. -/
theorem MultiRingSize.exists_iff :
    (∃ R : MultiRingSize, R.size = size) ↔
      (∃ R : RingSize, R.size = size) ∧ (MultiProducerBarrier.new size).isSome := by
  simp only [Option.isSome_iff_exists, MultiProducerBarrier.new_eq_some, exists_and_left,
    exists_eq, and_true]
  constructor
  · rintro ⟨R, rfl⟩
    exact ⟨⟨R.toRingSize, rfl⟩, R.size_ge⟩
  · rintro ⟨⟨R, rfl⟩, hGe⟩
    exact ⟨⟨R, (Nat.pow_le_pow_iff_right Nat.one_lt_two).mp hGe⟩, rfl⟩

/-- The memory of a disruptor starts with the slots `RingBuffer::new` made, and
finds them at the same indices. -/
theorem RingBuffer.new_init {R : RingSize} {ringBuffer : RingBuffer T}
    (h : RingBuffer.new R.size eventSource = some ringBuffer) :
    (∀ sequence, ringBuffer.index sequence = R.slot sequence) ∧
      ∀ i < R.size, ringBuffer.slots[i]? = some ((Memory.init eventSource).slots i) := by
  obtain ⟨-, rfl⟩ := RingBuffer.new_eq_some.mp h
  refine ⟨?_, ?_⟩
  · intro sequence
    rw [index, RingSize.slot, RingSize.indexMask]
  · intro i hi
    simp [Memory.init, hi]

/-- It starts with the bitfield `MultiProducerBarrier::new` made, and finds its
bits at the same indices. -/
theorem MultiProducerBarrier.new_init {R : MultiRingSize} {barrier : MultiProducerBarrier}
    (h : MultiProducerBarrier.new R.size = some barrier) :
    (∀ sequence, barrier.slotIndex sequence = R.slotIndex sequence ∧
      barrier.calculateAvailabilityIndices sequence = R.calculateAvailabilityIndices sequence ∧
      barrier.calculateAvailabilityFlag sequence = R.calculateAvailabilityFlag sequence) ∧
      barrier.cursor = (Memory.init eventSource).cursor ∧
      ∀ i < R.size / 64, barrier.availabilityAt i = some ((Memory.init eventSource).available i) := by
  obtain ⟨-, rfl⟩ := MultiProducerBarrier.new_eq_some.mp h
  refine ⟨fun _ => ⟨rfl, rfl, rfl⟩, rfl, fun i hi => ?_⟩
  simp [availabilityAt, Memory.init, hi]

end Calvera
