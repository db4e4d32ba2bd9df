import Calvera.Code.RingBuffer

/-!
# Results — unchecked indexing

Slots and availability bits are found by masking the sequence, once as an `i64`
in `RingBuffer` and once as a `usize` in `MultiProducerBarrier`, and accessed
without a bounds check. `NONE` and the sequences a round before the first are
negative and are masked as well.

* `indices_agree` — both computations stay inside their slices and find the
  same place, for every size the constructors accept and every `i64`.
-/

namespace Calvera

open Calvera.Lib

variable {T : Type}

/-- The slots of a ring buffer of `size` slots are indexed modulo `size`. -/
structure RingBuffer.Indexed (ringBuffer : RingBuffer T) (size : Nat) : Prop where
  length : ringBuffer.slots.size = size
  inBounds : ∀ s, InI64 s → ringBuffer.index s < ringBuffer.slots.size
  modulo : ∀ s, InI64 s → (ringBuffer.index s : Int) = s % size
  /-- Sequences share a slot when they are whole rounds apart. -/
  shared : ∀ s t, InI64 s → InI64 t →
    (ringBuffer.index s = ringBuffer.index t ↔ (size : Int) ∣ s - t)

/-- The bits of a barrier of `size` slots are indexed as the slots of
`ringBuffer` are. -/
structure MultiProducerBarrier.Indexed (barrier : MultiProducerBarrier) (size : Nat)
    (ringBuffer : RingBuffer T) : Prop where
  length : barrier.available.size = size / 64
  word : ∀ s, InI64 s → (barrier.calculateAvailabilityIndices s).1 < barrier.available.size
  bit : ∀ s, InI64 s → (barrier.calculateAvailabilityIndices s).2 < 64
  /-- The subtraction that gives the bit does not underflow. -/
  noUnderflow : ∀ s, InI64 s →
    (barrier.calculateAvailabilityIndices s).1 * 64 ≤ barrier.slotIndex s
  agrees : ∀ s, InI64 s →
    64 * (barrier.calculateAvailabilityIndices s).1 + (barrier.calculateAvailabilityIndices s).2 =
      ringBuffer.index s
  /-- Sequences share a bit when they are whole rounds apart. -/
  shared : ∀ s t, InI64 s → InI64 t →
    (barrier.calculateAvailabilityIndices s = barrier.calculateAvailabilityIndices t ↔
      (size : Int) ∣ s - t)
  /-- One round later the expected parity is the other one. -/
  flag : ∀ s, InI64 s → InI64 (s + size) →
    barrier.calculateAvailabilityFlag s ≠ barrier.calculateAvailabilityFlag (s + size)

/-- `get` and `get_ref` stay inside the slice. -/
theorem RingBuffer.Indexed.isSome {ringBuffer : RingBuffer T} {size : Nat}
    (h : ringBuffer.Indexed size) {s : Int} (hs : InI64 s) :
    (ringBuffer.get s).isSome ∧ (ringBuffer.getRef s).isSome := by
  rw [get, getRef, Array.getElem?_eq_getElem (h.inBounds s hs)]
  exact ⟨rfl, rfl⟩

/-- So does `availability_at`, at the word of a sequence. -/
theorem MultiProducerBarrier.Indexed.isSome {barrier : MultiProducerBarrier} {size : Nat}
    {ringBuffer : RingBuffer T} (h : barrier.Indexed size ringBuffer) {s : Int} (hs : InI64 s) :
    (barrier.availabilityAt (barrier.calculateAvailabilityIndices s).1).isSome := by
  rw [availabilityAt, Array.getElem?_eq_getElem (h.word s hs)]
  rfl

variable {e : Nat} {eventSource : Nat → T}

/-- The mask of `2 ^ e` slots, which is never negative. -/
theorem indexMask_toNat (he : e ≤ 63) : (BitVec.ofInt 64 (asI64 (2 ^ e - 1))).toNat = 2 ^ e - 1 := by
  have hLe : 2 ^ e ≤ 2 ^ 63 := Nat.pow_le_pow_right Nat.two_pos he
  have hPos := Nat.two_pow_pos e
  rw [asI64_of_lt (by omega), BitVec.toNat_ofInt]
  omega

theorem RingBuffer.index_eq (he : e ≤ 63) {ringBuffer : RingBuffer T}
    (h : RingBuffer.new (2 ^ e) eventSource = some ringBuffer) (s : Int) :
    ringBuffer.index s = slotOf (2 ^ e) s := by
  have hMask : ringBuffer.indexMask = asI64 (2 ^ e - 1) := by
    rw [(RingBuffer.new_eq_some.mp h).2]
  rw [index, hMask, andI64, asUnsigned_toInt]
  exact and_mask_toNat (by omega) s (indexMask_toNat he)

/-- **The slots are indexed modulo the size**, negative sequences included. -/
theorem RingBuffer.indexed (he : e ≤ 63) {ringBuffer : RingBuffer T}
    (h : RingBuffer.new (2 ^ e) eventSource = some ringBuffer) : ringBuffer.Indexed (2 ^ e) := by
  have hIndex := ringBuffer.index_eq he h
  have hLength : ringBuffer.slots.size = 2 ^ e := by
    obtain ⟨-, rfl⟩ := RingBuffer.new_eq_some.mp h
    rw [Array.size_map, Array.size_range]
  have hPos := Nat.two_pow_pos e
  refine ⟨hLength, ?_, ?_, ?_⟩
  · intro s _
    rw [hIndex, hLength]
    exact slotOf_lt hPos s
  · intro s _
    rw [hIndex, slotOf]
    exact Int.toNat_of_nonneg (Int.emod_nonneg s (by positivity))
  · intro s t _ _
    rw [hIndex, hIndex]
    exact slotOf_eq_iff_dvd hPos

namespace MultiProducerBarrier

variable {barrier : MultiProducerBarrier}

theorem slotIndex_eq (he : e ≤ 63) (h : MultiProducerBarrier.new (2 ^ e) = some barrier) (s : Int) :
    barrier.slotIndex s = slotOf (2 ^ e) s := by
  obtain ⟨-, rfl⟩ := MultiProducerBarrier.new_eq_some.mp h
  exact mask_toNat (by omega) s

theorem indices_eq (he : e ≤ 63) (h : MultiProducerBarrier.new (2 ^ e) = some barrier) (s : Int) :
    barrier.calculateAvailabilityIndices s =
      (slotOf (2 ^ e) s / 64, slotOf (2 ^ e) s % 64) := by
  simp only [calculateAvailabilityIndices, slotIndex_eq he h, Nat.shiftRight_eq_div_pow]
  rw [Prod.mk.injEq]
  omega

/-- The flag is the parity of the round, an arithmetic shift of the sequence. -/
theorem flag_eq (h : MultiProducerBarrier.new (2 ^ e) = some barrier) (s : Int) :
    barrier.calculateAvailabilityFlag s = if oddRound (2 ^ e) s then 1#64 else 0#64 := by
  obtain ⟨-, rfl⟩ := MultiProducerBarrier.new_eq_some.mp h
  simp only [calculateAvailabilityFlag, Nat.log2_two_pow]
  exact shift_parity (by decide) s

/-- **The bits are indexed as the slots are**: the word and the bit of a slot,
in a bitfield of whole words. -/
theorem indexed (he : e ≤ 63) {ringBuffer : RingBuffer T}
    (hRing : RingBuffer.new (2 ^ e) eventSource = some ringBuffer)
    (h : MultiProducerBarrier.new (2 ^ e) = some barrier) : barrier.Indexed (2 ^ e) ringBuffer := by
  have hIndices := indices_eq he h
  have hPos := Nat.two_pow_pos e
  have hLength : barrier.available.size = 2 ^ e / 64 := by
    obtain ⟨-, rfl⟩ := MultiProducerBarrier.new_eq_some.mp h
    rw [Array.size_map, Array.size_range]
  -- at least 64 slots: the size is a multiple of the word
  have hWords : 64 ∣ 2 ^ e := by
    obtain ⟨hGe, -⟩ := MultiProducerBarrier.new_eq_some.mp h
    exact Nat.pow_dvd_pow 2 ((Nat.pow_le_pow_iff_right (n := 6) Nat.one_lt_two).mp hGe)
  refine ⟨hLength, ?_, ?_, ?_, ?_, ?_, ?_⟩
  · intro s _
    rw [hIndices, hLength]
    exact Nat.div_lt_div_of_lt_of_dvd hWords (slotOf_lt hPos s)
  · intro s _
    rw [hIndices]
    exact Nat.mod_lt _ (by decide)
  · intro s _
    rw [hIndices, slotIndex_eq he h]
    exact Nat.div_mul_le_self _ _
  · intro s _
    rw [hIndices, ringBuffer.index_eq he hRing]
    exact Nat.div_add_mod _ _
  · intro s t _ _
    rw [hIndices, hIndices, word_bit_inj]
    exact slotOf_eq_iff_dvd hPos
  · intro s _ _
    rw [flag_eq h, flag_eq h, oddRound_add_size hPos]
    cases oddRound (2 ^ e) s <;> decide

end MultiProducerBarrier

/-- **Unchecked indexing is in bounds, and both computations agree.** For every
size `RingBuffer::new` accepts, every `i64` sequence has its slot inside the
slice, at the sequence modulo the size; where `MultiProducerBarrier::new`
accepts the size as well, the word and the bit of the sequence are inside the
bitfield and name the same slot, sequences share them exactly when they differ
by a multiple of the size, and the expected flag changes with every round. -/
theorem indices_agree (size : Nat) (hSize : size < 2 ^ 64) (eventSource : Nat → T)
    (ringBuffer : RingBuffer T) (hRing : RingBuffer.new size eventSource = some ringBuffer) :
    ringBuffer.Indexed size ∧
      ∀ barrier, MultiProducerBarrier.new size = some barrier → barrier.Indexed size ringBuffer := by
  obtain ⟨e, he, rfl⟩ := exists_exponent hSize (RingBuffer.new_eq_some.mp hRing).1
  exact ⟨ringBuffer.indexed he hRing, fun barrier h => barrier.indexed he hRing h⟩

/-- In a ring of 64 slots `NONE` shares the last slot and bit with sequence 63,
in a round of the other parity. -/
theorem indices_agree_none : ∃ ringBuffer barrier,
    RingBuffer.new 64 id = some ringBuffer ∧ MultiProducerBarrier.new 64 = some barrier ∧
      ringBuffer.index NONE = 63 ∧ barrier.calculateAvailabilityIndices NONE = (0, 63) ∧
      ringBuffer.Indexed 64 ∧ barrier.Indexed 64 ringBuffer := by
  obtain ⟨hRing, hBarrier⟩ := indices_agree 64 (by decide) id _
    (RingBuffer.new_eq_some.mpr ⟨⟨6, rfl⟩, rfl⟩)
  exact ⟨_, _, RingBuffer.new_eq_some.mpr ⟨⟨6, rfl⟩, rfl⟩,
    MultiProducerBarrier.new_eq_some.mpr ⟨le_refl 64, rfl⟩, by decide, by decide, hRing,
    hBarrier _ (MultiProducerBarrier.new_eq_some.mpr ⟨le_refl 64, rfl⟩)⟩

end Calvera
