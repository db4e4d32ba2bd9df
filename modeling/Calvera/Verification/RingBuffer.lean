import Calvera.Lib.Ring
import Mathlib.Data.Finset.Card

/-!
# Verification — the ring buffer

`verification/RingBuffer.tla`: a ring buffer whose slots contain sequences. Who
reads and who writes each slot is tracked to detect data races.
-/

namespace Calvera.Verification

open Calvera.Lib

/-- `ringbuffer`, a function on the indices `0 .. LastIndex`. `none` is `NULL`. -/
structure RingBuffer (Writer Reader : Type) where
  slots : Nat → Option Int
  readers : Nat → Finset Reader
  writers : Nat → Finset Writer

namespace RingBuffer

variable {Writer Reader : Type} {ringbuffer : RingBuffer Writer Reader} {index i : Nat}

/-- `Init`. -/
def init : RingBuffer Writer Reader where
  slots _ := none
  readers _ := ∅
  writers _ := ∅

/-- `IndexOf(sequence)`. -/
def indexOf (size : Nat) (sequence : Int) : Nat := (sequence % size).toNat

theorem indexOf_eq (size : Nat) (sequence : Int) : indexOf size sequence = slotOf size sequence :=
  rfl

/-- `NoDataRaces`. -/
def NoDataRaces (size : Nat) (ringbuffer : RingBuffer Writer Reader) : Prop :=
  ∀ i < size, (ringbuffer.readers i = ∅ ∨ ringbuffer.writers i = ∅) ∧
    (ringbuffer.writers i).card ≤ 1

section Write

variable [DecidableEq Writer] {writer w : Writer}

/-- `Write(index, writer, value)`. -/
def write (ringbuffer : RingBuffer Writer Reader) (index : Nat) (writer : Writer) (value : Int) :
    RingBuffer Writer Reader :=
  { ringbuffer with
    writers := Function.update ringbuffer.writers index (insert writer (ringbuffer.writers index))
    slots := Function.update ringbuffer.slots index (some value) }

/-- `EndWrite(index, writer)`. -/
def endWrite (ringbuffer : RingBuffer Writer Reader) (index : Nat) (writer : Writer) :
    RingBuffer Writer Reader :=
  { ringbuffer with
    writers :=
      Function.update ringbuffer.writers index ((ringbuffer.writers index).erase writer) }

theorem mem_write {value : Int} : w ∈ (ringbuffer.write index writer value).writers i ↔
    w = writer ∧ i = index ∨ w ∈ ringbuffer.writers i := by
  unfold write
  rcases eq_or_ne i index with rfl | hne
  · simp
  · simp [hne]

theorem mem_endWrite : w ∈ (ringbuffer.endWrite index writer).writers i ↔
    ¬ (w = writer ∧ i = index) ∧ w ∈ ringbuffer.writers i := by
  unfold endWrite
  rcases eq_or_ne i index with rfl | hne
  · simp
  · simp [hne]

end Write

section Read

variable [DecidableEq Reader] {reader r : Reader}

/-- `BeginRead(index, reader)`. -/
def beginRead (ringbuffer : RingBuffer Writer Reader) (index : Nat) (reader : Reader) :
    RingBuffer Writer Reader :=
  { ringbuffer with
    readers := Function.update ringbuffer.readers index (insert reader (ringbuffer.readers index)) }

/-- `Read(index)`. -/
def read (ringbuffer : RingBuffer Writer Reader) (index : Nat) : Option Int :=
  ringbuffer.slots index

/-- `EndRead(index, reader)`. -/
def endRead (ringbuffer : RingBuffer Writer Reader) (index : Nat) (reader : Reader) :
    RingBuffer Writer Reader :=
  { ringbuffer with
    readers :=
      Function.update ringbuffer.readers index ((ringbuffer.readers index).erase reader) }

theorem mem_beginRead : r ∈ (ringbuffer.beginRead index reader).readers i ↔
    r = reader ∧ i = index ∨ r ∈ ringbuffer.readers i := by
  unfold beginRead
  rcases eq_or_ne i index with rfl | hne
  · simp
  · simp [hne]

theorem mem_endRead : r ∈ (ringbuffer.endRead index reader).readers i ↔
    ¬ (r = reader ∧ i = index) ∧ r ∈ ringbuffer.readers i := by
  unfold endRead
  rcases eq_or_ne i index with rfl | hne
  · simp
  · simp [hne]

end Read

end RingBuffer

end Calvera.Verification
