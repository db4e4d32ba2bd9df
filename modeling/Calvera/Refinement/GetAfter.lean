import Calvera.Refinement.Wiring
import Mathlib.Data.Nat.Find

/-!
# Refinement — what `get_after` answers

`get_after` reads several atomics while the other threads go on. Whatever
happens in between, what it answers has passed the level the barrier stands
for (`GetAfter.Sound.answer`): what it read stays true, because publications
and cursors only move forward. Run without interference it answers exactly the
highest sequence that has passed (`getAfter_run`).

For `MultiProducerBarrier` the loop reads parity bits; `Scan.step_eq` says what
one iteration does, and `scan_run` that the loop ends on any bitfield.
-/

namespace Calvera

open Calvera.Lib Calvera.Protocol

variable {E : Type} {R : RingSize} {m : Memory E}

-- ---------------------------------------------------------------------------
-- The loop over the availability bits
-- ---------------------------------------------------------------------------

theorem and_one_eq (x : BitVec 64) : x &&& 1#64 = if x.getLsbD 0 then 1#64 else 0#64 := by
  rw [BitVec.and_one_eq_setWidth_ofBool_getLsbD]
  cases x.getLsbD 0 <;> rfl

/-- The test of the loop compares the bit of a slot with the parity of the round. -/
theorem and_one_ne_flag (x : BitVec 64) (s : Int) :
    x &&& 1#64 ≠ R.calculateAvailabilityFlag s ↔ x.getLsbD 0 ≠ oddRound R.size s := by
  rw [and_one_eq, R.calculateAvailabilityFlag_eq]
  cases x.getLsbD 0 <;> cases oddRound R.size s <;> simp

/-- Within a word of the bitfield, sequences and bits advance together. -/
theorem slotOf_word (h64 : 64 ∣ R.size) {s : Int} {j : Nat} (hj : slotOf R.size s % 64 + j ≤ 63) :
    slotOf R.size (s + j) = slotOf R.size s + j := by
  have := slotOf_lt R.pos s
  exact slotOf_add (by omega)

/-- The variables stand at `highestAvailable`, and `f` holds of the bits in hand. -/
structure Scan.Reads (R : RingSize) (f : Int → Bool → Prop) (v : Scan) : Prop where
  bitIndex : v.bitIndex = slotOf R.size v.highestAvailable % 64
  flag : v.availabilityFlag = R.calculateAvailabilityFlag v.highestAvailable
  bits : ∀ j : Nat, v.bitIndex + j ≤ 63 → f (v.highestAvailable + j) (v.availability.getLsbD j)

/-- Move on to the next bit in hand. -/
def Scan.shift (v : Scan) : Scan :=
  { v with
    bitIndex := v.bitIndex + 1
    availability := v.availability >>> 1
    highestAvailable := v.highestAvailable + 1 }

theorem Scan.Reads.mono {f f' : Int → Bool → Prop} (h : ∀ s b, f s b → f' s b) {v : Scan}
    (hv : v.Reads R f) : v.Reads R f' where
  bitIndex := hv.bitIndex
  flag := hv.flag
  bits j hj := h _ _ (hv.bits j hj)

/-- Loading a word reads the bits of its slots. -/
theorem Scan.start_reads (h64 : 64 ∣ R.size) (q : Int) :
    (Scan.start R m.available q).Reads R fun s b => b = m.bit (slotOf R.size s) ∧ s ≤ q + 63 where
  bitIndex := by simp [Scan.start, R.calculateAvailabilityIndices_eq]
  flag := rfl
  bits j hj := by
    simp only [Scan.start, R.calculateAvailabilityIndices_eq] at hj ⊢
    refine ⟨?_, by omega⟩
    rw [slotOf_word h64 hj, BitVec.getLsbD_ushiftRight, Memory.bit]
    congr 2
    · omega
    · omega

theorem Scan.shift_reads (h64 : 64 ∣ R.size) {f : Int → Bool → Prop} {v : Scan} (hv : v.Reads R f)
    (hlt : v.bitIndex < 63) : v.shift.Reads R f where
  bitIndex := by
    have hBit := hv.bitIndex
    have hWord := slotOf_word h64 (s := v.highestAvailable) (j := 1) (by omega)
    show v.bitIndex + 1 = slotOf R.size (v.highestAvailable + 1) % 64
    rw [show v.highestAvailable + 1 = v.highestAvailable + (1 : Nat) by omega, hWord]
    omega
  flag := by
    have hBit := hv.bitIndex
    have := slotOf_lt R.pos v.highestAvailable
    show v.availabilityFlag = R.calculateAvailabilityFlag (v.highestAvailable + 1)
    rw [hv.flag, R.calculateAvailabilityFlag_eq, R.calculateAvailabilityFlag_eq,
      oddRound_succ (by omega)]
  bits j hj := by
    have hNext := hv.bits (j + 1) (by have : v.shift.bitIndex = v.bitIndex + 1 := rfl; omega)
    simp only [Scan.shift, BitVec.getLsbD_ushiftRight]
    rw [show v.highestAvailable + 1 + (j : Int) = v.highestAvailable + ((j + 1 : Nat) : Int) by omega,
      Nat.add_comm 1 j]
    exact hNext

/-- At the end of a word, the variables for the next word are those of a fresh
load; past the last word the parity changes. -/
theorem Scan.reload_eq (h64 : 64 ∣ R.size) {f : Int → Bool → Prop} {v : Scan} (hv : v.Reads R f)
    (hEnd : ¬ v.bitIndex < 63) (available : Nat → BitVec 64) :
    { availability := available (R.calculateAvailabilityIndices (v.highestAvailable + 1)).1
      availabilityIndex := (R.calculateAvailabilityIndices (v.highestAvailable + 1)).1
      bitIndex := 0
      availabilityFlag :=
        if (R.calculateAvailabilityIndices (v.highestAvailable + 1)).1 = 0 then
          v.availabilityFlag ^^^ 1#64
        else v.availabilityFlag
      highestAvailable := v.highestAvailable + 1 } =
      Scan.start R available (v.highestAvailable + 1) := by
  have hBit := hv.bitIndex
  have hLt := slotOf_lt R.pos v.highestAvailable
  have hZero : slotOf R.size (v.highestAvailable + 1) % 64 = 0 := by
    rcases Nat.lt_or_ge (slotOf R.size v.highestAvailable + 1) R.size with hlt | hge
    · rw [slotOf_succ hlt]
      omega
    · rw [slotOf_succ_wrap (by omega)]
  have hFlag : (if slotOf R.size (v.highestAvailable + 1) / 64 = 0 then v.availabilityFlag ^^^ 1#64
      else v.availabilityFlag) = R.calculateAvailabilityFlag (v.highestAvailable + 1) := by
    rw [hv.flag, R.calculateAvailabilityFlag_eq, R.calculateAvailabilityFlag_eq]
    rcases Nat.lt_or_ge (slotOf R.size v.highestAvailable + 1) R.size with hlt | hge
    · -- still in the same round, and not in the first word
      rw [slotOf_succ hlt, oddRound_succ hlt, if_neg (by omega)]
    · -- the next round begins
      have hWrap : slotOf R.size (v.highestAvailable + 1) = 0 := slotOf_succ_wrap (by omega)
      rw [hWrap, oddRound_succ_wrap (by omega), if_pos (by omega)]
      cases oddRound R.size v.highestAvailable <;> rfl
  simp only [Scan.start, R.calculateAvailabilityIndices_eq, hZero, hFlag, BitVec.ushiftRight_zero]

/-- **One iteration of the loop**: it stops where the bit does not show the
parity of the round, and goes on to the next bit or the next word otherwise. -/
theorem Scan.step_eq (h64 : 64 ∣ R.size) {f : Int → Bool → Prop} {v : Scan} (hv : v.Reads R f)
    (available : Nat → BitVec 64) :
    v.step R available =
      if v.availability.getLsbD 0 = oddRound R.size v.highestAvailable then
        .inl (if v.bitIndex < 63 then v.shift else Scan.start R available (v.highestAvailable + 1))
      else .inr (v.highestAvailable - 1) := by
  have hTest := and_one_ne_flag (R := R) v.availability v.highestAvailable
  rw [← hv.flag] at hTest
  unfold Scan.step
  by_cases hBit : v.availability.getLsbD 0 = oddRound R.size v.highestAvailable
  · rw [if_neg (by rw [hTest]; exact not_not.mpr hBit), if_pos hBit]
    by_cases hlt : v.bitIndex < 63
    · simp only [if_pos hlt, Scan.shift]
    · simp only [if_neg hlt]
      exact congrArg Sum.inl (Scan.reload_eq h64 hv hlt available)
  · rw [if_pos (hTest.mpr hBit), if_neg hBit]

/-- Run on a bitfield that does not change, the loop stops at the first bit
that does not show the parity of its round. -/
theorem scan_run (h64 : 64 ∣ R.size) {v : Scan}
    (hv : v.Reads R fun s b => b = m.bit (slotOf R.size s)) (n : Nat)
    (hMatch : ∀ k < n, m.bit (slotOf R.size (v.highestAvailable + (k : Nat))) =
      oddRound R.size (v.highestAvailable + (k : Nat)))
    (hStop : m.bit (slotOf R.size (v.highestAvailable + n)) ≠
      oddRound R.size (v.highestAvailable + n)) :
    (GetAfter.scan v).run R m (n + 1) = some (v.highestAvailable + n - 1) := by
  induction n generalizing v with
  | zero =>
    have hBit := hv.bits 0 (by have := hv.bitIndex; omega)
    simp only [Int.natCast_zero, Int.add_zero] at hBit hStop
    have hStep := Scan.step_eq h64 hv m.available
    rw [hBit, if_neg hStop] at hStep
    simp [GetAfter.run, GetAfter.step, hStep]
  | succ n ih =>
    have hBit := hv.bits 0 (by have := hv.bitIndex; omega)
    have hFirst := hMatch 0 (by omega)
    simp only [Int.natCast_zero, Int.add_zero] at hBit hFirst
    have hStep := Scan.step_eq h64 hv m.available
    rw [hBit, if_pos hFirst] at hStep
    -- both continuations stand one further, on the bits of the same memory
    have hRest : ∀ v' : Scan, v'.highestAvailable = v.highestAvailable + 1 →
        v'.Reads R (fun s b => b = m.bit (slotOf R.size s)) →
        (GetAfter.scan v').run R m (n + 1) = some (v.highestAvailable + (n + 1 : Nat) - 1) := by
      intro v' hHighest hReads
      have hShift : ∀ k : Nat, v'.highestAvailable + k = v.highestAvailable + (k + 1 : Nat) := by
        intro k
        rw [hHighest]
        omega
      rw [ih hReads (fun k hk => by rw [hShift]; exact hMatch (k + 1) (by omega))
        (by rw [hShift]; exact hStop), hShift]
    rw [GetAfter.run, GetAfter.step, hStep]
    by_cases hlt : v.bitIndex < 63
    · simp only [if_pos hlt]
      exact hRest v.shift rfl (Scan.shift_reads h64 hv hlt)
    · simp only [if_neg hlt]
      exact hRest _ rfl ((Scan.start_reads h64 _).mono fun _ _ h => h.1)

/-- **`get_after` of `MultiProducerBarrier` ends on any bitfield** that does
not change, after at most one lap: the first slot cannot show both parities. -/
theorem multiGetAfter_run (h64 : 64 ∣ R.size) (m : Memory E) (q : Int) :
    ∃ n ≤ R.size, (∀ k < n, m.bit (slotOf R.size (q + (k : Nat))) = oddRound R.size (q + (k : Nat))) ∧
      m.bit (slotOf R.size (q + n)) ≠ oddRound R.size (q + n) ∧
      (GetAfter.scanStart q).run R m (n + 2) = some (q + n - 1) := by
  have hStop : ∃ n, m.bit (slotOf R.size (q + (n : Nat))) ≠ oddRound R.size (q + n) := by
    by_contra hAll
    push Not at hAll
    have hFirst := hAll 0
    have hLap := hAll R.size
    rw [slotOf_add_size, oddRound_add_size R.pos] at hLap
    simp only [Int.natCast_zero, Int.add_zero] at hFirst
    rw [hFirst] at hLap
    cases oddRound R.size q <;> simp at hLap
  classical
  have hMatch : ∀ k < Nat.find hStop, m.bit (slotOf R.size (q + (k : Nat))) =
      oddRound R.size (q + k) := fun k hk => not_not.mp (Nat.find_min hStop hk)
  refine ⟨Nat.find hStop, ?_, hMatch, Nat.find_spec hStop, ?_⟩
  · by_contra hgt
    have hFirst := hMatch 0 (by omega)
    have hLap := hMatch R.size (by omega)
    rw [slotOf_add_size, oddRound_add_size R.pos] at hLap
    simp only [Int.natCast_zero, Int.add_zero] at hFirst
    rw [hFirst] at hLap
    cases oddRound R.size q <;> simp at hLap
  · have hReads : (Scan.start R m.available q).Reads R fun s b => b = m.bit (slotOf R.size s) :=
      (Scan.start_reads h64 q).mono fun _ _ h => h.1
    exact scan_run h64 hReads _ hMatch (Nat.find_spec hStop)

-- ---------------------------------------------------------------------------
-- Soundness of a call in progress
-- ---------------------------------------------------------------------------

variable {T : Topology Nat} {producerBarrier : Barrier} {a a' : State Nat} {j : Nat} {q : Int}

/-- The memory shows the state of the pipeline. -/
structure Represents (R : RingSize) (producerBarrier : Barrier) (m : Memory E) (a : State Nat) :
    Prop where
  cursor : ∀ c, a.cursor c = m.consumerCursors c
  published : match producerBarrier with
    | .uniProducer => ∀ s, s ∈ a.published ↔ s ≤ m.cursor
    | .multiProducer => 64 ∣ R.size ∧ Encodes R.size m.bit a.published
    | _ => False

/-- What a call has read so far is true of the pipeline: of a barrier over
consumer cursors, the minimum so far; of the availability bits, every bit in
hand that shows its round. -/
def GetAfter.Sound (R : RingSize) (T : Topology Nat) (producerBarrier : Barrier) (a : State Nat)
    (j : Nat) (q : Int) : GetAfter → Prop
  | .loadProducer => j = 0 ∧ producerBarrier = .uniProducer
  | .loadConsumer cursor => ∃ i, j = i + 1 ∧ ∀ c ∈ T.members, T.stage c = i → c = cursor
  | .fold minSequence rest => ∃ i, j = i + 1 ∧
      ∀ c ∈ T.members, T.stage c = i → c ∈ rest ∨ minSequence ≤ a.cursor c
  | .scanStart prev => j = 0 ∧ producerBarrier = .multiProducer ∧ prev = q
  | .scan v => j = 0 ∧ producerBarrier = .multiProducer ∧ q ≤ v.highestAvailable ∧
      (∀ s < v.highestAvailable, s ∈ a.published) ∧
      v.Reads R fun s b => b = oddRound R.size s → s ∈ a.published

/-- What a call has read stays true. -/
theorem GetAfter.Sound.later {g : GetAfter} (h : g.Sound R T producerBarrier a j q)
    (hLater : a.Later T a') : g.Sound R T producerBarrier a' j q := by
  cases g with
  | loadProducer => exact h
  | loadConsumer cursor => exact h
  | fold minSequence rest =>
    obtain ⟨i, rfl, h⟩ := h
    exact ⟨i, rfl, fun c hMem hStage =>
      (h c hMem hStage).imp_right fun hLe => hLe.trans (hLater.cursor c hMem)⟩
  | scanStart prev => exact h
  | scan v =>
    obtain ⟨hj, hBarrier, hFrom, hBelow, hReads⟩ := h
    exact ⟨hj, hBarrier, hFrom, fun s hs => hLater.published (hBelow s hs),
      hReads.mono fun s b h hBit => hLater.published (h hBit)⟩

/-- A call starts sound. -/
theorem Covers.sound {b : Barrier} (hCovers : Covers T producerBarrier j b)
    (hRep : Represents R producerBarrier m a) (q : Int) :
    (b.getAfter q).Sound R T producerBarrier a j q := by
  cases hCovers with
  | producer =>
    have hPublished := hRep.published
    cases producerBarrier with
    | uniProducer => exact ⟨rfl, rfl⟩
    | multiProducer => exact ⟨rfl, rfl, rfl⟩
    | uniConsumer cursor => exact hPublished.elim
    | multiConsumer cursors => exact hPublished.elim
  | uni hOne => exact ⟨_, rfl, fun c hMem hStage => (hOne c).mpr ⟨hMem, hStage⟩⟩
  | multi hAll => exact ⟨_, rfl, fun c hMem hStage => .inl ((hAll c).mpr ⟨hMem, hStage⟩)⟩

/-- Loading a word at `prev`, when all before `prev` is published, reads the
truth: the published set is a lap around `prev`. -/
theorem start_sound (h64 : 64 ∣ R.size) (hEnc : Encodes R.size m.bit a.published)
    {prev : Int} (hLap : Lap R.size a.published (prev - 1)) :
    (Scan.start R m.available prev).Reads R fun s b => b = oddRound R.size s → s ∈ a.published := by
  have hReads := Scan.start_reads (m := m) h64 prev
  refine { hReads with bits := fun k hk hBit => ?_ }
  obtain ⟨hLoad, hLe⟩ := hReads.bits k hk
  have hHighest : (Scan.start R m.available prev).highestAvailable = prev := rfl
  have := Nat.le_of_dvd R.pos h64
  rw [hHighest] at hBit hLoad hLe ⊢
  exact (hEnc.bit_iff R.pos hLap (by omega) (by omega)).mp (hLoad ▸ hBit)

/-- **A call stays sound, and its answer has passed the level.** -/
theorem GetAfter.Sound.step {g : GetAfter} (h : g.Sound R T producerBarrier a j q)
    (hRep : Represents R producerBarrier m a) (hLap : j = 0 → Lap R.size a.published (q - 1)) :
    (∀ g', g.step R m = .inl g' → g'.Sound R T producerBarrier a j q) ∧
      ∀ v, g.step R m = .inr v → a.Passed T j v := by
  cases g with
  | loadProducer =>
    obtain ⟨rfl, rfl⟩ := h
    refine ⟨fun g' hg => (by simp [GetAfter.step] at hg), fun v hg s hs => ?_⟩
    cases hg
    exact (hRep.published s).mpr hs
  | loadConsumer cursor =>
    obtain ⟨i, rfl, h⟩ := h
    refine ⟨fun g' hg => (by simp [GetAfter.step] at hg), fun v hg c hMem hStage => ?_⟩
    cases hg
    rw [h c hMem hStage, hRep.cursor]
  | fold minSequence rest =>
    obtain ⟨i, rfl, h⟩ := h
    cases rest with
    | nil =>
      refine ⟨fun g' hg => (by simp [GetAfter.step] at hg), fun v hg c hMem hStage => ?_⟩
      cases hg
      simpa using h c hMem hStage
    | cons cursor rest =>
      refine ⟨fun g' hg => ?_, fun v hg => (by simp [GetAfter.step] at hg)⟩
      cases hg
      refine ⟨i, rfl, fun c hMem hStage => ?_⟩
      rcases h c hMem hStage with hRest | hLe
      · rcases List.mem_cons.mp hRest with rfl | hRest
        · exact .inr (by rw [hRep.cursor]; exact Int.min_le_left _ _)
        · exact .inl hRest
      · exact .inr ((Int.min_le_right _ _).trans hLe)
  | scanStart prev =>
    obtain ⟨rfl, rfl, rfl⟩ := h
    obtain ⟨h64, hEnc⟩ := hRep.published
    refine ⟨fun g' hg => ?_, fun v hg => (by simp [GetAfter.step] at hg)⟩
    cases hg
    have hLap := hLap rfl
    exact ⟨rfl, rfl, le_refl _, fun s hs => hLap.filled s (Int.le_sub_one_of_lt hs),
      start_sound h64 hEnc hLap⟩
  | scan v =>
    obtain ⟨rfl, rfl, hFrom, hBelow, hReads⟩ := h
    obtain ⟨h64, hEnc⟩ := hRep.published
    have hLap := hLap rfl
    have hFirst := hReads.bits 0 (by have := hReads.bitIndex; omega)
    simp only [Int.natCast_zero, Int.add_zero] at hFirst
    have hStep := Scan.step_eq h64 hReads m.available
    rw [GetAfter.step]
    split at hStep
    · -- the bit in hand showed its round: one more is published
      rename_i hBit
      have hBelow' : ∀ s < v.highestAvailable + 1, s ∈ a.published := by
        intro s hs
        rcases Int.lt_or_eq_of_le (Int.lt_add_one_iff.mp hs) with hlt | rfl
        · exact hBelow s hlt
        · exact hFirst hBit
      rw [hStep]
      refine ⟨fun g' hg => ?_, fun w hg => (by simp at hg)⟩
      cases hg
      have hFrom' : q ≤ v.highestAvailable + 1 := by omega
      split
      · exact ⟨rfl, rfl, hFrom', hBelow', Scan.shift_reads h64 hReads ‹_›⟩
      · have hAhead : Lap R.size a.published (v.highestAvailable + 1 - 1) :=
          hLap.extend (by omega) fun s _ hs => hBelow' s (by omega)
        exact ⟨rfl, rfl, hFrom', hBelow', start_sound h64 hEnc hAhead⟩
    · rw [hStep]
      refine ⟨fun g' hg => (by simp at hg), fun w hg s hs => ?_⟩
      cases hg
      exact hBelow s (by omega)

/-- How many loads a call still performs at most before it answers, if nothing
beyond `last` is published. -/
def GetAfter.remaining (last : Int) : GetAfter → Nat
  | .loadProducer | .loadConsumer _ => 0
  | .fold _ rest => rest.length
  | .scanStart prev => (last + 2 - prev).toNat + 1
  | .scan v => (last + 2 - v.highestAvailable).toNat

/-- **A call that does not answer comes closer to its end**: a scan has seen
everything below the bit it tests published. -/
theorem GetAfter.Sound.remaining_lt {g g' : GetAfter} (h : g.Sound R T producerBarrier a j q)
    {last : Int} (hLast : ∀ s ∈ a.published, s ≤ last) (hs : g.step R m = .inl g') :
    g'.remaining last < g.remaining last := by
  cases g with
  | loadProducer => simp [GetAfter.step] at hs
  | loadConsumer cursor => simp [GetAfter.step] at hs
  | fold minSequence rest =>
    cases rest with
    | nil => simp [GetAfter.step] at hs
    | cons cursor rest =>
      cases hs
      exact Nat.lt_succ_self _
  | scanStart prev =>
    cases hs
    exact Nat.lt_succ_self _
  | scan v =>
    obtain ⟨-, -, -, hBelow, -⟩ := h
    have hSeen := hLast _ (hBelow (v.highestAvailable - 1) (by omega))
    have hAhead : ∀ v', v.step R m.available = .inl v' →
        v'.highestAvailable = v.highestAvailable + 1 := by
      intro v' hv
      unfold Scan.step at hv
      split at hv
      · cases hv
      · dsimp only at hv
        split at hv <;> cases hv <;> rfl
    cases hv : v.step R m.available with
    | inl v' =>
      simp only [GetAfter.step, hv] at hs
      cases hs
      have := hAhead v' hv
      simp only [GetAfter.remaining]
      omega
    | inr answer => simp [GetAfter.step, hv] at hs

-- ---------------------------------------------------------------------------
-- A call without interference
-- ---------------------------------------------------------------------------

/-- The fold over the cursors answers their minimum. -/
theorem fold_run (R : RingSize) (m : Memory E) (rest : List Nat) (minSequence : Int) :
    ∃ v, (GetAfter.fold minSequence rest).run R m (rest.length + 1) = some v ∧
      ∀ w, w ≤ v ↔ w ≤ minSequence ∧ ∀ c ∈ rest, w ≤ m.consumerCursors c := by
  induction rest generalizing minSequence with
  | nil => exact ⟨minSequence, rfl, by simp⟩
  | cons cursor rest ih =>
    obtain ⟨v, hRun, hMin⟩ := ih (min (m.consumerCursors cursor) minSequence)
    refine ⟨v, hRun, fun w => ?_⟩
    rw [hMin]
    simp only [List.mem_cons, forall_eq_or_imp, Int.le_min]
    tauto

/-- The bits of a lap, read from its start, show what is published. -/
theorem bits_published (hEnc : Encodes R.size m.bit a.published)
    (hLap : Lap R.size a.published (q - 1)) {n : Nat}
    (hMatch : ∀ k < n, m.bit (slotOf R.size (q + (k : Nat))) = oddRound R.size (q + (k : Nat))) :
    Lap R.size a.published (q + n - 1) := by
  induction n with
  | zero => simpa using hLap
  | succ n ih =>
    have hBefore := ih fun k hk => hMatch k (by omega)
    have hNext : q + (n : Int) ∈ a.published :=
      (hEnc.bit_iff R.pos hBefore (by omega) (by have := R.pos; omega)).mp (hMatch n (by omega))
    refine hBefore.extend (by omega) fun s hlo hhi => ?_
    obtain rfl : s = q + n := by omega
    exact hNext

/-- **Without interference, a call answers the highest sequence that has
passed the level** (sequences being `i64`). -/
theorem getAfter_run {b : Barrier} (hCovers : Covers T producerBarrier j b)
    (hRep : Represents R producerBarrier m a) (hLap : j = 0 → Lap R.size a.published (q - 1)) :
    ∃ fuel v, (b.getAfter q).run R m fuel = some v ∧ a.Passed T j v ∧
      ∀ w ≤ i64Max, a.Passed T j w → w ≤ v := by
  cases hCovers with
  | producer =>
    have hPublished := hRep.published
    cases producerBarrier with
    | uniProducer =>
      refine ⟨1, m.cursor, rfl, fun s hs => (hPublished s).mpr hs, fun w _ h => ?_⟩
      exact (hPublished w).mp (h w (le_refl w))
    | multiProducer =>
      obtain ⟨h64, hEnc⟩ := hPublished
      obtain ⟨n, -, hMatch, hStop, hRun⟩ := multiGetAfter_run h64 m q
      have hAhead := bits_published hEnc (hLap rfl) hMatch
      -- the bit it stopped at shows that its sequence is not published
      have hNot : q + (n : Int) ∉ a.published := fun hIn =>
        hStop ((hEnc.bit_iff R.pos hAhead (by omega) (by have := R.pos; omega)).mpr hIn)
      refine ⟨n + 2, q + n - 1, hRun, fun s hs => hAhead.filled s hs, fun w _ h => ?_⟩
      by_contra hgt
      exact hNot (h _ (by omega))
    | uniConsumer cursor => exact hPublished.elim
    | multiConsumer cursors => exact hPublished.elim
  | @uni i cursor hOne =>
    refine ⟨1, m.consumerCursors cursor, rfl, ?_, ?_⟩
    · intro c hMem hStage
      rw [(hOne c).mpr ⟨hMem, hStage⟩, hRep.cursor]
    · intro w _ h
      obtain ⟨hMem, hStage⟩ := (hOne cursor).mp rfl
      rw [← hRep.cursor]
      exact h cursor hMem hStage
  | @multi i cursors hAll =>
    obtain ⟨v, hRun, hMin⟩ := fold_run R m cursors i64Max
    refine ⟨_, v, hRun, ?_, fun w hw h => (hMin w).mpr ⟨hw, ?_⟩⟩
    · intro c hMem hStage
      rw [hRep.cursor]
      exact ((hMin v).mp (le_refl v)).2 c ((hAll c).mpr ⟨hMem, hStage⟩)
    · intro c hc
      obtain ⟨hMem, hStage⟩ := (hAll c).mp hc
      rw [← hRep.cursor]
      exact h c hMem hStage

end Calvera
