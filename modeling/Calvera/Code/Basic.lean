import Calvera.Lib.Mask
import Mathlib.Data.Nat.Log
import Mathlib.Tactic.Ring
import Mathlib.Tactic.NormNum

/-!
# Calvera — sequences, casts and index arithmetic

The arithmetic the ring buffer and the availability bitfield rest on, as the
source computes it: `src/ring_buffer.rs` and the index functions of
`MultiProducerBarrier` in `src/producer/multi.rs`.

A `Sequence` is an `i64`. It is an `Int` here; the additions of
`next_sequences`, whose operand `n` is chosen by the client, are checked
(`addI64`, `subI64`), the others move a sequence that is already in range by
one. `usize` and `u64` values are `Nat`, machine words are `BitVec 64`.

The two index computations, one in `i64` and one in `usize`, agree with the
slot of the sequence on an ideal ring: `RingSize.slot_eq` and
`RingSize.slotIndex_eq`; the round flag is the parity of the round:
`RingSize.calculateAvailabilityFlag_eq`.
-/

namespace Calvera

open Calvera.Lib

-- ---------------------------------------------------------------------------
-- Machine integers
-- ---------------------------------------------------------------------------

/-- `barrier::NONE`: nothing published or consumed yet. -/
def NONE : Int := -1

def i64Min : Int := -2 ^ 63

def i64Max : Int := 2 ^ 63 - 1

/-- The values an `i64` can hold. -/
def InI64 (x : Int) : Prop := i64Min ≤ x ∧ x ≤ i64Max

instance (x : Int) : Decidable (InI64 x) := inferInstanceAs (Decidable (_ ∧ _))

/-- `x as i64` for a `usize` or `u64`: reinterprets two's complement. -/
def asI64 (x : Nat) : Int := (x : Int).bmod (2 ^ 64)

/-- `x as usize` or `x as u64` for an `i64`. -/
def asUnsigned (x : Int) : Nat := (x % 2 ^ 64).toNat

/-- `x + y` on `i64`; `none` when the addition overflows. -/
def addI64 (x y : Int) : Option Int := if InI64 (x + y) then some (x + y) else none

/-- `x - y` on `i64`; `none` when the subtraction overflows. -/
def subI64 (x y : Int) : Option Int := if InI64 (x - y) then some (x - y) else none

/-- `x & y` on `i64`. -/
def andI64 (x y : Int) : Int := (BitVec.ofInt 64 x &&& BitVec.ofInt 64 y).toInt

/-- `x.saturating_add_unsigned(y)` on `i64`. -/
def saturatingAddUnsigned (x : Int) (y : Nat) : Int := min (x + y) i64Max

theorem addI64_eq_some {x y z : Int} : addI64 x y = some z ↔ InI64 (x + y) ∧ z = x + y := by
  unfold addI64
  split <;> simp_all [eq_comm]

theorem subI64_eq_some {x y z : Int} : subI64 x y = some z ↔ InI64 (x - y) ∧ z = x - y := by
  unfold subI64
  split <;> simp_all [eq_comm]

theorem asI64_of_lt {x : Nat} (h : x < 2 ^ 63) : asI64 x = x := by
  unfold asI64
  rw [Int.bmod_eq_of_le] <;> omega

/-- From `2^63` on, `as i64` gives a negative number. -/
theorem asI64_of_ge {x : Nat} (hlo : 2 ^ 63 ≤ x) (hhi : x < 2 ^ 64) :
    asI64 x = (x : Int) - 2 ^ 64 := by
  unfold asI64
  rw [Int.bmod_def]
  split <;> omega

theorem asUnsigned_of_nonneg {x : Int} (hlo : 0 ≤ x) (hhi : x ≤ i64Max) :
    asUnsigned x = x.toNat := by
  unfold asUnsigned
  unfold i64Max at hhi
  rw [Int.emod_eq_of_lt hlo (by omega)]

theorem asUnsigned_toInt (x : BitVec 64) : asUnsigned x.toInt = x.toNat := by
  have hMod : x.toInt % 2 ^ 64 = (x.toNat : Int) % 2 ^ 64 := by
    rw [BitVec.toInt_eq_toNat_bmod]
    exact Int.bmod_emod
  have := x.isLt
  unfold asUnsigned
  omega

-- ---------------------------------------------------------------------------
-- The size of a ring buffer
-- ---------------------------------------------------------------------------

/-- A size accepted by `RingBuffer::new`: a power of two. The largest `usize`
power of two is left out, because there `ring_buffer.size() - 1` overflows. -/
structure RingSize where
  exponent : Nat
  le : exponent ≤ 62

namespace RingSize

variable (R : RingSize)

/-- `slots.len()`. -/
def size : Nat := 2 ^ R.exponent

theorem pos : 0 < R.size := Nat.two_pow_pos _

theorem size_le : R.size ≤ 2 ^ 62 := Nat.pow_le_pow_right (by decide) R.le

theorem size_pos : (0 : Int) < R.size := by
  have := R.pos
  omega

/-- `RingBuffer::size`: `slots.len() as i64`. -/
def sizeI64 : Int := asI64 R.size

@[simp] theorem sizeI64_eq : R.sizeI64 = R.size :=
  asI64_of_lt (lt_of_le_of_lt R.size_le (by decide))

/-- `RingBuffer::index_mask`: `(size - 1) as i64`. -/
def indexMask : Int := asI64 (R.size - 1)

/-- The index computed by `RingBuffer::get` and `RingBuffer::get_ref`:
`(sequence & self.index_mask) as usize`. -/
def slot (sequence : Int) : Nat := asUnsigned (andI64 sequence R.indexMask)

/-- `RingBuffer::wrap_point`. -/
def wrapPoint (sequence : Int) : Option Int := subI64 sequence R.sizeI64

/-- `RingBuffer::free_slots`. -/
def freeSlots (producer highestReadByConsumers : Int) : Option Int :=
  match R.wrapPoint producer with
  | none => none
  | some wrapPoint => subI64 highestReadByConsumers wrapPoint

theorem freeSlots_eq_some {producer rear free : Int} (h : R.freeSlots producer rear = some free) :
    free = rear - (producer - R.size) := by
  unfold freeSlots wrapPoint at h
  split at h
  · cases h
  · rename_i w hw
    rw [subI64_eq_some, sizeI64_eq] at hw
    rw [subI64_eq_some] at h
    rw [h.2, hw.2]

/-- Within `i64`, computing the free slots does not overflow. -/
theorem freeSlots_of_bounds {producer rear : Int} (hlo : NONE ≤ producer)
    (hhi : producer ≤ i64Max) (hRear : NONE ≤ rear) (hle : rear ≤ producer) :
    R.freeSlots producer rear = some (rear - (producer - R.size)) := by
  have := R.size_le
  have := R.pos
  simp only [NONE, i64Max] at hlo hhi hRear
  have hWrap : subI64 producer R.size = some (producer - R.size) := by
    simp only [subI64_eq_some, InI64, i64Min, i64Max, and_true]
    omega
  unfold freeSlots wrapPoint
  rw [sizeI64_eq, hWrap]
  simp only [subI64_eq_some, InI64, i64Min, i64Max, and_true]
  omega

-- ---------------------------------------------------------------------------
-- The indices of the availability bitfield
-- ---------------------------------------------------------------------------

/-- `MultiProducerBarrier::index_shift`: `usize::ilog2(size)`. -/
def indexShift : Nat := Nat.log2 R.size

/-- `MultiProducerBarrier::slot_index`: `sequence as usize & self.index_mask`. -/
def slotIndex (sequence : Int) : Nat := asUnsigned sequence &&& (R.size - 1)

/-- `MultiProducerBarrier::calculate_availability_indices`. -/
def calculateAvailabilityIndices (sequence : Int) : Nat × Nat :=
  let slotIndex := R.slotIndex sequence
  let availabilityIndex := slotIndex >>> 6
  let bitIndex := slotIndex - availabilityIndex * 64
  (availabilityIndex, bitIndex)

/-- `MultiProducerBarrier::calculate_availability_flag`: `0` in even rounds,
`1` in odd rounds. -/
def calculateAvailabilityFlag (sequence : Int) : BitVec 64 :=
  BitVec.ofInt 64 (sequence >>> R.indexShift) &&& 1#64

-- ---------------------------------------------------------------------------
-- Agreement with the ideal ring
-- ---------------------------------------------------------------------------

theorem exponent_le : R.exponent ≤ 64 := R.le.trans (by decide)

theorem slotIndex_eq (s : Int) : R.slotIndex s = slotOf R.size s :=
  mask_toNat R.exponent_le s

theorem slot_eq (s : Int) : R.slot s = slotOf R.size s := by
  have hMask : (BitVec.ofInt 64 R.indexMask).toNat = R.size - 1 := by
    have := R.size_le
    rw [indexMask, asI64_of_lt (by omega), BitVec.toNat_ofInt]
    omega
  rw [slot, andI64, asUnsigned_toInt]
  exact and_mask_toNat R.exponent_le s hMask

theorem slot_lt (s : Int) : R.slot s < R.size := by
  rw [slot_eq]
  exact slotOf_lt R.pos s

/-- The word and the bit of a sequence, from its slot. -/
theorem calculateAvailabilityIndices_eq (s : Int) :
    R.calculateAvailabilityIndices s = (slotOf R.size s / 64, slotOf R.size s % 64) := by
  simp only [calculateAvailabilityIndices, slotIndex_eq, Nat.shiftRight_eq_div_pow]
  rw [Prod.mk.injEq]
  omega

/-- The flag of a sequence is the parity of its round. -/
theorem calculateAvailabilityFlag_eq (s : Int) :
    R.calculateAvailabilityFlag s = if oddRound R.size s then 1#64 else 0#64 := by
  rw [calculateAvailabilityFlag, indexShift, size, Nat.log2_two_pow]
  exact shift_parity (by decide) s

end RingSize

/-- A size `MultiProducerBarrier::new` accepts as well: at least 64 slots. -/
structure MultiRingSize extends RingSize where
  ge : 6 ≤ exponent

namespace MultiRingSize

variable (R : MultiRingSize)

theorem size_ge : 64 ≤ R.size := Nat.pow_le_pow_right (n := 2) (by decide) R.ge

/-- The bitfield consists of whole words. -/
theorem dvd_size : 64 ∣ R.size := Nat.pow_dvd_pow 2 R.ge

end MultiRingSize

end Calvera
