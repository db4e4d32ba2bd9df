import Calvera.Refinement.GetAfter

/-!
# Refinement — a scan that reads words at different times

The loop of `MultiProducerBarrier::get_after` tests bits of words it loaded
earlier, while producers flip bits. `Scan.call` runs the loop with the memory
each load sees as data, and records the words it loads.

The bit of the sequence at offset `d` is read from load number `(b + d) / 64`,
where `b` is the bit the scan starts at; this is all there is to know about the
times of the loads (`Scan.call_eq`).

* `Scan.call_eq` — the scan ends at the first bit that does not match.
* `Shows.mem_iff` — what a bit says about the published set.
-/

namespace Calvera

open Calvera.Lib

variable {E : Type} {R : RingSize}

-- ---------------------------------------------------------------------------
-- Running the loop
-- ---------------------------------------------------------------------------

namespace RingSize

/-- `i64_needed`: the number of words of the availability bitfield. -/
def i64Needed (R : RingSize) : Nat := R.size / 64

end RingSize

namespace Scan

/-- The loop from `v` on: load number `k` sees the memory `seen k`. The answer,
if it comes within `fuel` tests, with the indices of the words loaded; `loads`
are those loaded so far. -/
def runFrom (R : RingSize) (seen : Nat → Memory E) : Nat → List Nat → Scan → Option (Int × List Nat)
  | 0, _, _ => none
  | fuel + 1, loads, v =>
    match v.step R (seen loads.length).available with
    | .inr answer => some (answer, loads)
    | .inl v' =>
      -- only after bit 63 the iteration loads a word
      runFrom R seen fuel (if v.bitIndex < 63 then loads else loads ++ [v'.availabilityIndex]) v'

/-- `MultiProducerBarrier::get_after(prev)`, where load number `k` sees the
memory `seen k`: the answer, if it comes within `fuel` tests, and the indices
of the words loaded. -/
def call (R : RingSize) (seen : Nat → Memory E) (prev : Int) (fuel : Nat) :
    Option (Int × List Nat) :=
  let v := Scan.start R (seen 0).available prev
  runFrom R seen fuel [v.availabilityIndex] v

end Scan

-- ---------------------------------------------------------------------------
-- Which load a bit comes from
-- ---------------------------------------------------------------------------

/-- Words and slots are aligned, so the bit index counts sequences. -/
theorem slotOf_add_mod (h64 : 64 ∣ R.size) (s : Int) (d : Nat) :
    slotOf R.size (s + d) % 64 = (slotOf R.size s % 64 + d) % 64 := by
  have hMod : ∀ t : Int, ((slotOf R.size t : Nat) : Int) % 64 = t % 64 := by
    intro t
    have hNonneg : 0 ≤ t % (R.size : Int) := Int.emod_nonneg t (Int.ne_of_gt R.size_pos)
    have hCast : ((slotOf R.size t : Nat) : Int) = t % R.size := by
      unfold slotOf
      omega
    rw [hCast]
    exact Int.emod_emod_of_dvd t (by exact_mod_cast h64)
  have hStart := hMod s
  have hThere := hMod (s + d)
  omega

/-- Every word index that is computed is within the bitfield. -/
theorem availabilityIndex_lt (h64 : 64 ∣ R.size) (s : Int) :
    (R.calculateAvailabilityIndices s).1 < R.i64Needed := by
  obtain ⟨words, hWords⟩ := h64
  have hSlot := slotOf_lt R.pos s
  rw [R.calculateAvailabilityIndices_eq, RingSize.i64Needed]
  show slotOf R.size s / 64 < R.size / 64
  omega

namespace Scan

variable {seen : Nat → Memory E} {prev : Int} {n : Nat}

/-- The bit of the sequence at offset `d` of a scan from `prev` shows its round,
at the moment its word is loaded. -/
def Matches (R : RingSize) (seen : Nat → Memory E) (prev : Int) (d : Nat) : Prop :=
  (seen ((slotOf R.size prev % 64 + d) / 64)).bit (slotOf R.size (prev + d)) =
    oddRound R.size (prev + d)

/-- The loop is about to test offset `d`, after the given loads. -/
structure Stands (R : RingSize) (seen : Nat → Memory E) (prev : Int) (d : Nat) (loads : List Nat)
    (v : Scan) : Prop where
  highest : v.highestAvailable = prev + d
  count : loads.length = (slotOf R.size prev % 64 + d) / 64 + 1
  bounds : ∀ i ∈ loads, i < R.i64Needed
  reads : v.Reads R fun s b => b = (seen (loads.length - 1)).bit (slotOf R.size s)

variable {d : Nat} {loads : List Nat} {v : Scan}

theorem start_stands (h64 : 64 ∣ R.size) :
    Stands R seen prev 0 [(Scan.start R (seen 0).available prev).availabilityIndex]
      (Scan.start R (seen 0).available prev) where
  highest := (Int.add_zero prev).symm
  count := by
    rw [List.length_singleton]
    omega
  bounds i hMem := by
    obtain rfl := List.mem_singleton.mp hMem
    exact availabilityIndex_lt h64 prev
  reads := (Scan.start_reads h64 prev).mono fun _ _ h => h.1

theorem Stands.bitIndex (h : Stands R seen prev d loads v) (h64 : 64 ∣ R.size) :
    v.bitIndex = (slotOf R.size prev % 64 + d) % 64 := by
  rw [h.reads.bitIndex, h.highest, slotOf_add_mod h64]

/-- What the test of offset `d` finds. -/
theorem Stands.step_eq (h : Stands R seen prev d loads v) (h64 : 64 ∣ R.size)
    (available : Nat → BitVec 64) :
    (Matches R seen prev d ∧ v.step R available =
      .inl (if v.bitIndex < 63 then v.shift else Scan.start R available (prev + d + 1))) ∨
    (¬ Matches R seen prev d ∧ v.step R available = .inr (prev + d - 1)) := by
  have hIndex := h.bitIndex h64
  -- the bit in hand is the one of the sequence that is tested
  have hInHand := h.reads.bits 0 (by omega)
  rw [h.count, h.highest, Nat.add_sub_cancel, Int.natCast_zero, Int.add_zero] at hInHand
  have hStep := Scan.step_eq h64 h.reads available
  rw [hInHand, h.highest] at hStep
  split at hStep
  · exact .inl ⟨‹_›, hStep⟩
  · exact .inr ⟨‹_›, hStep⟩

/-- Within a word the loop goes on with the bits in hand. -/
theorem Stands.shift (h : Stands R seen prev d loads v) (h64 : 64 ∣ R.size)
    (hRoom : v.bitIndex < 63) : Stands R seen prev (d + 1) loads v.shift := by
  have hIndex := h.bitIndex h64
  have hCount := h.count
  refine ⟨?_, by omega, h.bounds, Scan.shift_reads h64 h.reads hRoom⟩
  show v.highestAvailable + 1 = prev + ((d + 1 : Nat) : Int)
  rw [h.highest]
  omega

/-- After a word the loop loads the next one. -/
theorem Stands.reload (h : Stands R seen prev d loads v) (h64 : 64 ∣ R.size)
    (hEnd : ¬ v.bitIndex < 63) :
    Stands R seen prev (d + 1)
      (loads ++ [(Scan.start R (seen loads.length).available (prev + d + 1)).availabilityIndex])
      (Scan.start R (seen loads.length).available (prev + d + 1)) := by
  have hIndex := h.bitIndex h64
  have hCount := h.count
  refine ⟨?_, ?_, fun i hMem => ?_, ?_⟩
  · show prev + d + 1 = prev + ((d + 1 : Nat) : Int)
    omega
  · rw [List.length_append, List.length_singleton]
    omega
  · rcases List.mem_append.mp hMem with hOld | hNew
    · exact h.bounds i hOld
    · obtain rfl := List.mem_singleton.mp hNew
      exact availabilityIndex_lt h64 _
  · rw [List.length_append, List.length_singleton, Nat.add_sub_cancel]
    exact (Scan.start_reads h64 _).mono fun _ _ h => h.1

/-- The loop from the test of offset `d` on, by induction on the tests to come. -/
theorem Stands.runFrom_eq (h64 : 64 ∣ R.size) {rest : Nat} (h : Stands R seen prev d loads v)
    (hMatch : ∀ e < rest, Matches R seen prev (d + e)) (hStop : ¬ Matches R seen prev (d + rest)) :
    ∃ loads', runFrom R seen (rest + 1) loads v = some (prev + (d + rest : Nat) - 1, loads') ∧
      loads'.length = (slotOf R.size prev % 64 + (d + rest)) / 64 + 1 ∧
      ∀ i ∈ loads', i < R.i64Needed := by
  induction rest generalizing d v loads with
  | zero =>
    rcases h.step_eq h64 (seen loads.length).available with ⟨hMatches, -⟩ | ⟨-, hStep⟩
    · exact (hStop hMatches).elim
    · exact ⟨loads, by simp only [runFrom, hStep, Nat.add_zero], h.count, h.bounds⟩
  | succ rest ih =>
    have hShift : ∀ e, d + (e + 1) = d + 1 + e := fun e => by omega
    have hMatch' : ∀ e < rest, Matches R seen prev (d + 1 + e) := fun e he =>
      hShift e ▸ hMatch (e + 1) (by omega)
    rw [hShift] at hStop ⊢
    rcases h.step_eq h64 (seen loads.length).available with ⟨-, hStep⟩ | ⟨hNot, -⟩
    · by_cases hRoom : v.bitIndex < 63
      · rw [if_pos hRoom] at hStep
        rw [runFrom, hStep]
        simp only [if_pos hRoom]
        exact ih (h.shift h64 hRoom) hMatch' hStop
      · rw [if_neg hRoom] at hStep
        rw [runFrom, hStep]
        simp only [if_neg hRoom]
        exact ih (h.reload h64 hRoom) hMatch' hStop
    · exact (hNot (hMatch 0 (by omega))).elim

/-- **The scan ends at the first bit that does not match**, whenever its words
were loaded. -/
theorem call_eq (h64 : 64 ∣ R.size) (hMatch : ∀ d < n, Matches R seen prev d)
    (hStop : ¬ Matches R seen prev n) :
    ∃ loads, call R seen prev (n + 1) = some (prev + n - 1, loads) ∧
      loads.length = (slotOf R.size prev % 64 + n) / 64 + 1 ∧ ∀ i ∈ loads, i < R.i64Needed := by
  have hStart : Stands R seen prev 0 _ _ := start_stands h64
  have h := hStart.runFrom_eq h64 (fun e he => by rw [Nat.zero_add]; exact hMatch e he)
    (by rw [Nat.zero_add]; exact hStop)
  rwa [Nat.zero_add] at h

end Scan

-- ---------------------------------------------------------------------------
-- What the bits show
-- ---------------------------------------------------------------------------

/-- For each slot the bitfield holds the flag of the latest sequence in
`published`, or `1` when there is none. -/
structure Shows (R : RingSize) (m : Memory E) (published : Set Int) : Prop where
  latest : ∀ s ∈ published, (∀ t ∈ published, R.slotIndex t = R.slotIndex s → t ≤ s) →
    R.calculateAvailabilityFlag s = if m.bit (R.slotIndex s) then 1#64 else 0#64
  unused : ∀ i < R.size, (∀ s ∈ published, R.slotIndex s ≠ i) → m.bit i = true

/-- The published sequences are all those below `prev`, and some of the round
that starts there. -/
structure Around (R : RingSize) (prev : Int) (published : Set Int) : Prop where
  nonneg : ∀ s ∈ published, 0 ≤ s
  below : ∀ s, 0 ≤ s → s < prev → s ∈ published
  within : ∀ s ∈ published, s < prev + R.size

variable {m : Memory E} {prev : Int} {published : Set Int}

/-- The latest of its slot: one round later is not published. -/
theorem Around.latest (h : Around R prev published) {t u : Int} (hNext : t + R.size ∉ published)
    (hNonneg : 0 ≤ t + R.size) (hMem : u ∈ published)
    (hSlot : slotOf R.size u = slotOf R.size t) : u ≤ t := by
  by_contra hgt
  have hSize := R.size_pos
  have hWithin := h.within u hMem
  have hRound : t + R.size ≤ u := by
    by_contra hlt
    have := slotOf_inj R.pos (s := u) (t := t) (by omega) (by omega) hSlot
    omega
  rcases Int.lt_or_eq_of_le hRound with hlt | rfl
  · -- two rounds later would be out of reach
    have hRound' : t + R.size ≤ u - R.size := by
      by_contra hlt'
      have hSlot' : slotOf R.size (u - R.size) = slotOf R.size t := by
        rw [slotOf_sub_size, hSlot]
      have := slotOf_inj R.pos (s := u - R.size) (t := t) (by omega) (by omega) hSlot'
      omega
    exact hNext (h.below _ hNonneg (by omega))
  · exact hNext hMem

/-- The bits hold the parity of the last round, counting the sequences below
`0` as published in the round before the first. -/
theorem Shows.encodes (h : Shows R m published) (hAround : Around R prev published) :
    Encodes R.size m.bit (published ∪ {t | t < 0}) := by
  intro t ht hNext
  rw [Set.mem_union, Set.mem_ofPred_eq, not_or, Int.not_lt] at hNext
  obtain ⟨hNext, hNonneg⟩ := hNext
  rcases ht with ht | ht
  · have hFlag := h.latest t ht fun u hMem hSlot =>
      hAround.latest hNext hNonneg hMem (by rwa [R.slotIndex_eq, R.slotIndex_eq] at hSlot)
    rw [R.slotIndex_eq, R.calculateAvailabilityFlag_eq] at hFlag
    cases hBit : m.bit (slotOf R.size t) <;> cases hOdd : oddRound R.size t <;>
      simp [hBit, hOdd] at hFlag ⊢
  · have hNeg : t < 0 := ht
    rw [oddRound_neg (by omega) hNeg]
    refine h.unused _ (slotOf_lt R.pos t) fun u hMem hSlot => ?_
    rw [R.slotIndex_eq] at hSlot
    have := hAround.latest hNext hNonneg hMem hSlot
    have := hAround.nonneg u hMem
    omega

/-- **Within the round that starts at `prev`, a bit shows the parity of a
sequence exactly when that sequence is published.** -/
theorem Shows.mem_iff (h : Shows R m published) (hAround : Around R prev published) {s : Int}
    (hPrev : 0 ≤ prev) (hlo : prev ≤ s) (hhi : s < prev + R.size) :
    m.bit (slotOf R.size s) = oddRound R.size s ↔ s ∈ published := by
  have hSize := R.size_pos
  have hLap : Lap R.size (published ∪ {t | t < 0}) (prev - 1) := by
    refine ⟨?_, ?_⟩
    · intro t ht
      rcases lt_or_ge t 0 with hNeg | hGe
      · exact .inr hNeg
      · exact .inl (hAround.below t hGe (by omega))
    · intro t ht
      rcases ht with ht | ht
      · have := hAround.within t ht
        omega
      · have : t < 0 := ht
        omega
  rw [(h.encodes hAround).bit_iff R.pos hLap (by omega) (by omega)]
  refine or_iff_left fun hNeg => ?_
  have : s < 0 := hNeg
  omega

end Calvera
