import Mathlib.Data.Set.Basic
import Mathlib.Algebra.Order.Group.Unbundled.Int
import Mathlib.Tactic.Common

/-!
# Sequences on a ring, and one parity bit per slot

Sequence numbers run through a ring of `size` slots: sequence `s` uses slot
`s mod size` in round `s / size`. Two facts carry every argument about such a
ring:

* a window of `size` consecutive sequences uses every slot once
  (`slotOf_inj`);
* consecutive rounds of one slot have opposite parity (`oddRound_add_size`),
  so a single bit per slot tells which of two neighbouring rounds last marked
  it (`Encodes.bit_iff`), as long as the marked set stays within one **lap**:
  everything up to some `m` is marked and nothing beyond `m + size`.

A lap is kept when marks are added inside it, and the bits keep encoding the
marked set when each new mark flips the bit of its slot (`Encodes.mark`).
Negative sequences count as marked from the start, in the odd round `-1`.
-/

namespace Calvera.Lib

variable {size : Nat} {s t m : Int}

/-- The slot of sequence `s` in a ring of `size` slots. -/
def slotOf (size : Nat) (s : Int) : Nat := (s % size).toNat

/-- Whether `s` falls into an odd round of the ring. -/
def oddRound (size : Nat) (s : Int) : Bool := decide (s / size % 2 = 1)

theorem slotOf_lt (hSize : 0 < size) (s : Int) : slotOf size s < size := by
  have hPos : (0 : Int) < size := by omega
  have := Int.emod_nonneg s (Int.ne_of_gt hPos)
  have := Int.emod_lt_of_pos s hPos
  unfold slotOf
  omega

/-- In round `0` sequences and slots are the same numbers. -/
theorem slotOf_natCast {i : Nat} (hi : i < size) : slotOf size (i : Int) = i := by
  have hMod : (i : Int) % size = i := Int.emod_eq_of_lt (by omega) (by omega)
  unfold slotOf
  omega

theorem slotOf_eq_iff (hSize : 0 < size) :
    slotOf size s = slotOf size t ↔ s % size = t % size := by
  have hPos : (0 : Int) < size := by omega
  have := Int.emod_nonneg s (Int.ne_of_gt hPos)
  have := Int.emod_nonneg t (Int.ne_of_gt hPos)
  unfold slotOf
  omega

theorem slotOf_eq_iff_dvd (hSize : 0 < size) :
    slotOf size s = slotOf size t ↔ (size : Int) ∣ s - t := by
  rw [slotOf_eq_iff hSize]
  exact Int.emod_eq_emod_iff_emod_sub_eq_zero.trans Int.dvd_iff_emod_eq_zero.symm

@[simp] theorem slotOf_add_size (s : Int) : slotOf size (s + size) = slotOf size s := by
  simp [slotOf]

@[simp] theorem slotOf_sub_size (s : Int) : slotOf size (s - size) = slotOf size s := by
  simp [slotOf]

/-- Sequences less than one round apart use different slots. -/
theorem slotOf_inj (hSize : 0 < size) (hst : s < t + size) (hts : t < s + size)
    (h : slotOf size s = slotOf size t) : s = t := by
  have hDvd := (slotOf_eq_iff_dvd hSize).mp h
  have hZero : s - t = 0 := Int.eq_zero_of_abs_lt_dvd hDvd (by rw [abs_lt]; omega)
  omega

/-- The next sequence uses the next slot, unless that slot is past the end. -/
theorem slotOf_succ (hlt : slotOf size s + 1 < size) :
    slotOf size (s + 1) = slotOf size s + 1 := by
  have hPos : (0 : Int) < size := by omega
  have hNonneg := Int.emod_nonneg s (Int.ne_of_gt hPos)
  have hSlot : ((slotOf size s : Nat) : Int) = s % size := by unfold slotOf; omega
  have hMod : (s + 1) % size = s % size + 1 := by
    rw [← Int.emod_add_emod]
    exact Int.emod_eq_of_lt (by omega) (by omega)
  unfold slotOf at hlt ⊢
  omega

/-- The same for several steps. -/
theorem slotOf_add {j : Nat} (hlt : slotOf size s + j < size) :
    slotOf size (s + j) = slotOf size s + j := by
  induction j with
  | zero => simp
  | succ j ih =>
    have hPrev := ih (by omega)
    rw [Int.natCast_succ, ← Int.add_assoc, slotOf_succ (by omega), hPrev]
    rfl

/-- After the last slot comes slot `0`. -/
theorem slotOf_succ_wrap (hlast : slotOf size s + 1 = size) : slotOf size (s + 1) = 0 := by
  have hPos : (0 : Int) < size := by omega
  have hNonneg := Int.emod_nonneg s (Int.ne_of_gt hPos)
  have hSlot : ((slotOf size s : Nat) : Int) = s % size := by unfold slotOf; omega
  have hMod : (s + 1) % size = 0 := by
    rw [← Int.emod_add_emod, show s % (size : Int) + 1 = size by omega, Int.emod_self]
  unfold slotOf
  omega

-- ---------------------------------------------------------------------------
-- Rounds
-- ---------------------------------------------------------------------------

/-- One round later the parity is the opposite. -/
theorem oddRound_add_size (hSize : 0 < size) (s : Int) :
    oddRound size (s + size) = !oddRound size s := by
  have hPos : (0 : Int) < size := by omega
  have hDiv : (s + size) / size = s / size + 1 := by
    rw [Int.add_ediv_of_dvd_right (Int.dvd_refl _), Int.ediv_self (Int.ne_of_gt hPos)]
  rw [oddRound, oddRound, hDiv, Bool.eq_iff_iff]
  simp only [decide_eq_true_eq, Bool.not_eq_eq_eq_not, Bool.not_true, decide_eq_false_iff_not]
  omega

theorem oddRound_sub_size (hSize : 0 < size) (s : Int) :
    oddRound size (s - size) = !oddRound size s := by
  have h := oddRound_add_size hSize (s - size)
  rw [Int.sub_add_cancel] at h
  rw [h, Bool.not_not]

/-- Round `-1`, which holds the sequences before the first lap, is odd. -/
theorem oddRound_neg (hlo : -(size : Int) ≤ s) (hhi : s < 0) : oddRound size s = true := by
  have hPos : (0 : Int) < size := by omega
  have hDiv : s / size = -1 := by
    rw [Int.ediv_eq_iff_of_pos hPos]
    omega
  simp [oddRound, hDiv]

/-- Sequences of one round that are neighbours in it have the same parity. -/
theorem oddRound_succ (hlt : slotOf size s + 1 < size) :
    oddRound size (s + 1) = oddRound size s := by
  have hPos : (0 : Int) < size := by omega
  have hNonneg := Int.emod_nonneg s (Int.ne_of_gt hPos)
  have hSlot : ((slotOf size s : Nat) : Int) = s % size := by unfold slotOf; omega
  have hSplit := Int.emod_add_mul_ediv s size
  have hDiv : (s + 1) / size = s / size := by
    rw [Int.ediv_eq_iff_of_pos hPos]
    constructor
    · rw [Int.mul_comm]; omega
    · rw [Int.mul_comm]; omega
  rw [oddRound, oddRound, hDiv]

/-- After the last slot comes the next round. -/
theorem oddRound_succ_wrap (hlast : slotOf size s + 1 = size) :
    oddRound size (s + 1) = !oddRound size s := by
  have hPos : (0 : Int) < size := by omega
  have hNonneg := Int.emod_nonneg s (Int.ne_of_gt hPos)
  have hSlot : ((slotOf size s : Nat) : Int) = s % size := by unfold slotOf; omega
  have hSplit := Int.emod_add_mul_ediv s size
  have hDiv : (s + 1) / size = s / size + 1 := by
    rw [Int.ediv_eq_iff_of_pos hPos, Int.add_mul, Int.mul_comm]
    omega
  rw [oddRound, oddRound, hDiv, Bool.eq_iff_iff]
  simp only [decide_eq_true_eq, Bool.not_eq_eq_eq_not, Bool.not_true, decide_eq_false_iff_not]
  omega

-- ---------------------------------------------------------------------------
-- Laps and parity bits
-- ---------------------------------------------------------------------------

/-- The marked set fills everything up to `m` and stays within one round of it. -/
structure Lap (size : Nat) (marked : Set Int) (m : Int) : Prop where
  filled : ∀ s, s ≤ m → s ∈ marked
  bounded : ∀ s ∈ marked, s ≤ m + size

/-- `bit` holds, for every slot, the parity of the last round that marked it. -/
def Encodes (size : Nat) (bit : Nat → Bool) (marked : Set Int) : Prop :=
  ∀ s ∈ marked, s + size ∉ marked → bit (slotOf size s) = oddRound size s

variable {bit bit' : Nat → Bool} {marked new : Set Int}

/-- Before anything is marked, all bits say "odd". -/
theorem encodes_init : Encodes size (fun _ => true) {s : Int | s < 0} := by
  intro s hs hNext
  simp only [Set.mem_ofPred_eq, Int.not_lt] at hs hNext
  exact (oddRound_neg (by omega) hs).symm

/-- **Reading a bit.** Within the lap, a slot shows the parity of a sequence
exactly when that sequence is marked. -/
theorem Encodes.bit_iff (hSize : 0 < size) (hEnc : Encodes size bit marked)
    (hLap : Lap size marked m) (hlo : m < s) (hhi : s ≤ m + size) :
    bit (slotOf size s) = oddRound size s ↔ s ∈ marked := by
  constructor
  · intro hBit
    by_contra hNot
    have hPrev : s - size ∈ marked := hLap.filled _ (by omega)
    have hOld := hEnc (s - size) hPrev (by rwa [Int.sub_add_cancel])
    rw [slotOf_sub_size, oddRound_sub_size hSize, hBit] at hOld
    cases hodd : oddRound size s <;> simp [hodd] at hOld
  · intro hs
    refine hEnc s hs fun hNext => ?_
    have := hLap.bounded _ hNext
    omega

/-- A lap can be seen from further ahead, as long as everything up to there is marked. -/
theorem Lap.extend (hLap : Lap size marked m) {m' : Int} (hle : m ≤ m')
    (hFilled : ∀ s, m < s → s ≤ m' → s ∈ marked) : Lap size marked m' where
  filled s hs := by
    rcases lt_or_ge m s with hlt | hge
    · exact hFilled s hlt hs
    · exact hLap.filled s hge
  bounded s hs := by
    have := hLap.bounded s hs
    omega

/-- Marks added inside a lap keep it a lap. -/
theorem Lap.union (hLap : Lap size marked m) (hNew : ∀ s ∈ new, s ≤ m + size) :
    Lap size (marked ∪ new) m where
  filled s hs := Or.inl (hLap.filled s hs)
  bounded s hs := hs.elim (hLap.bounded s) (hNew s)

/-- **Marking.** Flipping exactly the bits of newly marked sequences keeps the
bits in step with the marked set. -/
theorem Encodes.mark (hSize : 0 < size) (hEnc : Encodes size bit marked)
    (hLap : Lap size marked m) (hFresh : ∀ s ∈ new, s ∉ marked)
    (hNew : ∀ s ∈ new, s ≤ m + size)
    (hFlip : ∀ s ∈ new, bit' (slotOf size s) = !bit (slotOf size s))
    (hKeep : ∀ s, (∀ t ∈ new, slotOf size t ≠ slotOf size s) →
      bit' (slotOf size s) = bit (slotOf size s)) :
    Encodes size bit' (marked ∪ new) := by
  have hAbove : ∀ s ∈ new, m < s := fun s hs => by
    by_contra hle
    exact hFresh s hs (hLap.filled s (by omega))
  intro s hs hNext
  rw [Set.mem_union, not_or] at hNext
  rcases hs with hs | hs
  · -- an old mark whose slot is not marked again keeps its bit
    rw [hKeep s, hEnc s hs hNext.1]
    intro t ht hSlot
    have hlo := hAbove t ht
    have hhi := hNew t ht
    have hsLe := hLap.bounded s hs
    have hsNext : m < s + size := by
      by_contra hle
      exact hNext.1 (hLap.filled _ (by omega))
    rcases lt_or_ge m s with hms | hms
    · have : t = s := slotOf_inj hSize (by omega) (by omega) hSlot
      exact hFresh t ht (this ▸ hs)
    · have : t = s + size := by
        refine slotOf_inj hSize (by omega) (by omega) ?_
        rw [slotOf_add_size, hSlot]
      exact hNext.2 (this ▸ ht)
  · -- a new mark flips the parity of the round before it
    have hPrev : s - size ∈ marked := hLap.filled _ (by have := hNew s hs; omega)
    have hOld := hEnc (s - size) hPrev (by rw [Int.sub_add_cancel]; exact hFresh s hs)
    rw [slotOf_sub_size, oddRound_sub_size hSize] at hOld
    rw [hFlip s hs, hOld, Bool.not_not]

end Calvera.Lib
