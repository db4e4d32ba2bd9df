import Calvera.Code.MultiProducer
import Calvera.Refinement.GetAfter

/-!
# Refinement — flipping the availability bits

`publish_range_relaxed` collects the bits of one word in a mask and commits
them with one `fetch_xor`, then goes on with the next word. `PublishRange.At`
says where the loop stands: offsets below `m` are committed, those from `m` to
`i` are in the mask. `PublishRange.step_cases` says what one iteration does;
whatever it commits is a block of consecutive sequences (`Marks`), and flipping
their bits keeps the bitfield in step (`Marks.encodes`).
-/

namespace Calvera

open Calvera.Lib

variable {E : Type} {R : RingSize} {index : Nat} {mask : BitVec 64} {lower upper m : Int}

/-- The bits of a word's mask are the slots of `lower..=upper`. -/
structure Marks (R : RingSize) (index : Nat) (mask : BitVec 64) (lower upper : Int) : Prop where
  iff : ∀ i : Nat, (i / 64 = index ∧ mask.getLsbD (i % 64) = true) ↔
    ∃ s, lower ≤ s ∧ s ≤ upper ∧ slotOf R.size s = i

/-- What a `fetch_xor` does to the bit of slot `i`. -/
theorem Memory.fetchXor_bit (m : Memory E) (index : Nat) (mask : BitVec 64) (i : Nat) :
    (m.fetchXor index mask).bit i =
      if i / 64 = index ∧ mask.getLsbD (i % 64) = true then !m.bit i else m.bit i := by
  unfold Memory.bit Memory.fetchXor
  by_cases hIndex : i / 64 = index
  · subst hIndex
    cases hBit : mask.getLsbD (i % 64) <;> simp [hBit]
  · simp [hIndex, Function.update_of_ne]

/-- **Committing a mask marks its sequences.** -/
theorem Marks.encodes (hMarks : Marks R index mask lower upper) {memory : Memory E}
    {published : Set Int} {v : Int} (hEnc : Encodes R.size memory.bit published)
    (hLap : Lap R.size published v) (hFresh : ∀ s, lower ≤ s → s ≤ upper → s ∉ published)
    (hUpper : upper ≤ v + R.size) :
    Encodes R.size (memory.fetchXor index mask).bit (published ∪ {s | lower ≤ s ∧ s ≤ upper}) := by
  refine hEnc.mark R.pos hLap (fun s hs => hFresh s hs.1 hs.2) (fun s hs => hs.2.trans hUpper) ?_ ?_
  · rintro s ⟨hlo, hhi⟩
    rw [Memory.fetchXor_bit, if_pos ((hMarks.iff _).mpr ⟨s, hlo, hhi, rfl⟩)]
  · intro s hOther
    rw [Memory.fetchXor_bit, if_neg]
    intro hHit
    obtain ⟨t, hlo, hhi, hSlot⟩ := (hMarks.iff _).mp hHit
    exact hOther t ⟨hlo, hhi⟩ hSlot

/-- `publish` marks one sequence. -/
theorem publishMask_marks {s : Int} (h : publishMask R s = (index, mask)) :
    Marks R index mask s s := by
  simp only [publishMask, R.calculateAvailabilityIndices_eq, Prod.mk.injEq] at h
  obtain ⟨rfl, rfl⟩ := h
  refine ⟨fun i => ?_⟩
  have hBit : (1#64 <<< (slotOf R.size s % 64)).getLsbD (i % 64) = true ↔
      i % 64 = slotOf R.size s % 64 := by
    simp only [BitVec.getLsbD_shiftLeft, BitVec.getLsbD_one, Bool.and_eq_true, decide_eq_true_eq,
      Bool.not_eq_true', decide_eq_false_iff_not]
    omega
  rw [hBit]
  constructor
  · rintro ⟨hIndex, hMod⟩
    exact ⟨s, le_refl _, le_refl _, by omega⟩
  · rintro ⟨t, hlo, hhi, rfl⟩
    obtain rfl : t = s := by omega
    exact ⟨rfl, rfl⟩

-- ---------------------------------------------------------------------------
-- The loop of `publish_range_relaxed`
-- ---------------------------------------------------------------------------

namespace PublishRange

variable {r r' : PublishRange}

/-- The loop stands at offset `i`: offsets below `m` are committed, and the mask
holds the bits of the offsets from `m` to `i`, all in the current word. -/
structure At (R : RingSize) (r : PublishRange) (m : Int) : Prop where
  nonneg : 0 ≤ m
  le_i : m ≤ r.i
  i_le : r.i ≤ r.n
  index : r.availabilityIndex = slotOf R.size (r.start + r.i) / 64
  bit : r.bitIndex = slotOf R.size (r.start + r.i) % 64
  word : r.i - m ≤ r.bitIndex
  mask : ∀ b, r.flipMask.getLsbD b = true ↔ r.bitIndex ≤ b + (r.i - m) ∧ b < r.bitIndex

@[simp] theorem new_start (R : RingSize) (start n : Int) : (new R start n).start = start := by
  simp only [new, R.calculateAvailabilityIndices_eq]

@[simp] theorem new_n (R : RingSize) (start n : Int) : (new R start n).n = n := by
  simp only [new, R.calculateAvailabilityIndices_eq]

theorem new_at (R : RingSize) (start : Int) {n : Int} (hn : 0 ≤ n) : (new R start n).At R 0 where
  nonneg := le_refl _
  le_i := le_refl _
  i_le := hn
  index := by simp [new, R.calculateAvailabilityIndices_eq]
  bit := by simp [new, R.calculateAvailabilityIndices_eq]
  word := by simp [new]
  mask b := by
    simp only [new, BitVec.getLsbD_zero, Bool.false_eq_true, false_iff]
    omega

/-- The slot of an offset in the mask. -/
theorem At.slot_eq (hAt : r.At R m) {t : Nat} (ht : (t : Int) ≤ r.i - m) :
    slotOf R.size (r.start + r.i - t) + t = slotOf R.size (r.start + r.i) := by
  have hWord := hAt.word
  have hBit := hAt.bit
  have hLt := slotOf_lt R.pos (r.start + r.i)
  induction t with
  | zero => simp
  | succ t ih =>
    have hPrev := ih (by omega)
    -- one slot back does not leave the word
    have hNotLast : slotOf R.size (r.start + r.i - (t + 1 : Nat)) + 1 ≠ R.size := by
      intro hLast
      have hWrap := slotOf_succ_wrap hLast
      rw [show r.start + r.i - ((t + 1 : Nat) : Int) + 1 = r.start + r.i - t by omega] at hWrap
      omega
    have hlt := slotOf_lt R.pos (r.start + r.i - (t + 1 : Nat))
    have hSucc : slotOf R.size (r.start + r.i - (t + 1 : Nat) + 1) =
        slotOf R.size (r.start + r.i - (t + 1 : Nat)) + 1 := slotOf_succ (by omega)
    rw [show r.start + r.i - ((t + 1 : Nat) : Int) + 1 = r.start + r.i - t by omega] at hSucc
    omega

/-- Setting one bit of a mask. -/
theorem or_bit (x : BitVec 64) {i : Nat} (hi : i ≤ 63) (b : Nat) :
    (x ||| 1#64 <<< i).getLsbD b = true ↔ x.getLsbD b = true ∨ b = i := by
  have hOne : (1#64 <<< i).getLsbD b = true ↔ b = i := by
    simp only [BitVec.getLsbD_shiftLeft, BitVec.getLsbD_one, Bool.and_eq_true, decide_eq_true_eq,
      Bool.not_eq_true', decide_eq_false_iff_not]
    omega
  rw [BitVec.getLsbD_or, Bool.or_eq_true, hOne]

/-- The bits from `k` slots back up to slot `last` belong to the last `k + 1` sequences. -/
theorem marks_of_bits {last : Int} {k : Nat}
    (hk : k ≤ slotOf R.size last % 64)
    (hMask : ∀ b, mask.getLsbD b = true ↔
      slotOf R.size last % 64 ≤ b + k ∧ b ≤ slotOf R.size last % 64)
    (hSlots : ∀ t ≤ k, slotOf R.size (last - (t : Nat)) + t = slotOf R.size last) :
    Marks R (slotOf R.size last / 64) mask (last - k) last := by
  refine ⟨fun i => ?_⟩
  rw [hMask]
  constructor
  · rintro ⟨hIndex, hlo, hhi⟩
    have ht := hSlots (slotOf R.size last - i) (by omega)
    exact ⟨last - ((slotOf R.size last - i : Nat) : Int), by omega, by omega, by omega⟩
  · rintro ⟨s, hlo, hhi, rfl⟩
    have ht := hSlots (last - s).toNat (by omega)
    rw [show last - ((last - s).toNat : Int) = s by omega] at ht
    omega

/-- The next slot is in the same word: its bit joins the mask. -/
theorem At.collect (h64 : 64 ∣ R.size) (hAt : r.At R m) (hlt : r.i < r.n) (hRoom : r.bitIndex < 63) :
    At R
      { r with
        i := r.i + 1
        bitIndex := r.bitIndex + 1
        flipMask := r.flipMask ||| 1#64 <<< r.bitIndex } m := by
  have hBit := hAt.bit
  have hWord := hAt.word
  have hle := hAt.le_i
  have hNext : slotOf R.size (r.start + (r.i + 1)) = slotOf R.size (r.start + r.i) + 1 := by
    have := slotOf_lt R.pos (r.start + r.i)
    rw [← Int.add_assoc]
    exact slotOf_succ (by omega)
  refine ⟨hAt.nonneg, ?_, ?_, ?_, ?_, ?_, fun b => ?_⟩
  · show m ≤ r.i + 1
    omega
  · show r.i + 1 ≤ r.n
    omega
  · show r.availabilityIndex = slotOf R.size (r.start + (r.i + 1)) / 64
    rw [hNext, hAt.index]
    omega
  · show r.bitIndex + 1 = slotOf R.size (r.start + (r.i + 1)) % 64
    omega
  · show r.i + 1 - m ≤ ((r.bitIndex + 1 : Nat) : Int)
    omega
  · show (r.flipMask ||| 1#64 <<< r.bitIndex).getLsbD b = true ↔
      ((r.bitIndex + 1 : Nat) : Int) ≤ b + (r.i + 1 - m) ∧ b < r.bitIndex + 1
    rw [or_bit _ (by omega), hAt.mask]
    omega

/-- The word is full: the mask holds the sequences from offset `m` to `i`. -/
theorem At.commit (hAt : r.At R m) (hFull : r.bitIndex = 63) :
    Marks R r.availabilityIndex (r.flipMask ||| 1#64 <<< r.bitIndex) (r.start + m)
      (r.start + r.i) := by
  have hBit := hAt.bit
  have hWord := hAt.word
  have hle := hAt.le_i
  have hBits : Marks R (slotOf R.size (r.start + r.i) / 64) (r.flipMask ||| 1#64 <<< r.bitIndex)
      (r.start + r.i - ((r.i - m).toNat : Int)) (r.start + r.i) := by
    refine marks_of_bits (by omega) (fun b => ?_) fun t ht => hAt.slot_eq (by omega)
    rw [or_bit _ (by omega), hAt.mask]
    omega
  rwa [← hAt.index, show r.start + r.i - ((r.i - m).toNat : Int) = r.start + m by omega] at hBits

/-- After a full word the loop stands at the start of the next one. -/
theorem At.reload (h64 : 64 ∣ R.size) (hAt : r.At R m) (hlt : r.i < r.n) (hFull : r.bitIndex = 63) :
    At R
      { r with
        i := r.i + 1
        availabilityIndex := (R.calculateAvailabilityIndices (r.start + r.i + 1)).1
        bitIndex := 0
        flipMask := 0#64 } (r.i + 1) := by
  have hBit := hAt.bit
  have hStart : slotOf R.size (r.start + (r.i + 1)) % 64 = 0 := by
    have := slotOf_lt R.pos (r.start + r.i)
    rw [← Int.add_assoc]
    rcases Nat.lt_or_ge (slotOf R.size (r.start + r.i) + 1) R.size with hIn | hOut
    · rw [slotOf_succ hIn]
      omega
    · rw [slotOf_succ_wrap (by omega)]
  have hNonneg : 0 ≤ r.i + 1 := by
    have := hAt.nonneg
    have := hAt.le_i
    omega
  refine ⟨hNonneg, le_refl _, ?_, ?_, hStart.symm, ?_, fun b => ?_⟩
  · show r.i + 1 ≤ r.n
    omega
  · simp only [R.calculateAvailabilityIndices_eq, Int.add_assoc]
  · simp
  · simp only [BitVec.getLsbD_zero, Bool.false_eq_true, false_iff]
    omega

/-- After the loop, what is left in the mask are the sequences from offset `m` on. -/
theorem At.rest (hAt : r.At R m) (hEnd : r.i = r.n) (hMore : m < r.n) :
    r.flipMask > 0 ∧
      Marks R r.availabilityIndex r.flipMask (r.start + m) (r.start + r.n - 1) := by
  have hBit := hAt.bit
  have hWord := hAt.word
  have hSlots : ∀ t : Nat, (t : Int) ≤ r.n - m →
      slotOf R.size (r.start + r.n - t) + t = slotOf R.size (r.start + r.n) := by
    rw [← hEnd]
    exact fun t ht => hAt.slot_eq ht
  have hLast : slotOf R.size (r.start + r.n - 1) + 1 = slotOf R.size (r.start + r.n) :=
    hSlots 1 (by omega)
  have hIndex := hAt.index
  rw [hEnd] at hBit hWord hIndex
  constructor
  · refine (BitVec.pos_iff_ne_zero _).mpr fun hZero => ?_
    have hTop := (hAt.mask (r.bitIndex - 1)).mpr ⟨by omega, by omega⟩
    rw [hZero] at hTop
    simp at hTop
  · have hBits : Marks R (slotOf R.size (r.start + r.n - 1) / 64) r.flipMask
        (r.start + r.n - 1 - ((r.n - 1 - m).toNat : Int)) (r.start + r.n - 1) := by
      refine marks_of_bits (by omega) ?_ ?_
      · intro b
        rw [hAt.mask, hEnd]
        omega
      · intro t ht
        have := hSlots (t + 1) (by omega)
        rw [show r.start + r.n - ((t + 1 : Nat) : Int) = r.start + r.n - 1 - t by omega] at this
        omega
    rw [show slotOf R.size (r.start + r.n - 1) / 64 = r.availabilityIndex by omega] at hBits
    rwa [show r.start + r.n - 1 - ((r.n - 1 - m).toNat : Int) = r.start + m by omega] at hBits

/-- An iteration collects a bit, or commits a full word. -/
theorem At.step_more (h64 : 64 ∣ R.size) (hAt : r.At R m) (hlt : r.i < r.n) :
    ∃ commit r' m', r.step R = (commit, some r') ∧ r'.start = r.start ∧ r'.n = r.n ∧
      r'.i = r.i + 1 ∧ r'.At R m' ∧
      (commit = none ∧ m' = m ∨ ∃ index mask, commit = some (index, mask) ∧ m' = r.i + 1 ∧
        Marks R index mask (r.start + m) (r.start + r.i)) := by
  by_cases hRoom : r.bitIndex < 63
  · have hStep : r.step R = (none, some { r with
        i := r.i + 1, bitIndex := r.bitIndex + 1,
        flipMask := r.flipMask ||| 1#64 <<< r.bitIndex }) := by
      simp only [step, if_pos hlt, if_pos hRoom]
    exact ⟨_, _, m, hStep, rfl, rfl, rfl, hAt.collect h64 hlt hRoom, .inl ⟨rfl, rfl⟩⟩
  · have hFull : r.bitIndex = 63 := by
      have := hAt.bit
      omega
    have hStep : r.step R = (some (r.availabilityIndex, r.flipMask ||| 1#64 <<< r.bitIndex),
        some { r with
          i := r.i + 1,
          availabilityIndex := (R.calculateAvailabilityIndices (r.start + r.i + 1)).1,
          bitIndex := 0, flipMask := 0#64 }) := by
      simp only [step, if_pos hlt, if_neg hRoom]
    exact ⟨_, _, r.i + 1, hStep, rfl, rfl, rfl, hAt.reload h64 hlt hFull,
      .inr ⟨_, _, rfl, rfl, hAt.commit hFull⟩⟩

/-- After the loop the rest is committed, if there is any. -/
theorem At.step_end (hAt : r.At R m) (hEnd : r.i = r.n) :
    (∃ index mask, r.step R = (some (index, mask), none) ∧ m < r.n ∧
      Marks R index mask (r.start + m) (r.start + r.n - 1)) ∨
    (r.step R = (none, none) ∧ m = r.n) := by
  have hle := hAt.le_i
  have hOver : ¬ r.i < r.n := by omega
  by_cases hMore : m < r.n
  · obtain ⟨hMask, hMarks⟩ := hAt.rest hEnd hMore
    exact .inl ⟨_, _, by simp only [step, if_neg hOver, if_pos hMask], hMore, hMarks⟩
  · have hZero : r.flipMask = 0#64 := by
      apply BitVec.eq_of_getLsbD_eq
      intro b _
      rw [BitVec.getLsbD_zero, ← Bool.not_eq_true, hAt.mask]
      omega
    exact .inr ⟨by simp [step, if_neg hOver, hZero], by omega⟩

/-- The mask holds the bits of one word. -/
theorem At.le_word (hAt : r.At R m) : r.i ≤ m + 63 := by
  have hWord := hAt.word
  have hBit := hAt.bit
  omega

/-- **One iteration of the loop, or its end**: collect a bit, commit a full
word, commit the rest, or find nothing left to commit. -/
theorem At.step_cases (h64 : 64 ∣ R.size) (hAt : r.At R m) :
    (∃ r', r.step R = (none, some r') ∧ r'.start = r.start ∧ r'.n = r.n ∧ r'.At R m) ∨
    (∃ index mask r', r.step R = (some (index, mask), some r') ∧ r'.start = r.start ∧ r'.n = r.n ∧
      r.i < r.n ∧ Marks R index mask (r.start + m) (r.start + r.i) ∧ r'.At R (r.i + 1)) ∨
    (∃ index mask, r.step R = (some (index, mask), none) ∧ m < r.n ∧
      Marks R index mask (r.start + m) (r.start + r.n - 1)) ∨
    (r.step R = (none, none) ∧ m = r.n) := by
  by_cases hlt : r.i < r.n
  · obtain ⟨commit, r', m', hStep, hStart, hN, -, hAt', hCommit⟩ := hAt.step_more h64 hlt
    rcases hCommit with ⟨rfl, rfl⟩ | ⟨index, mask, rfl, rfl, hMarks⟩
    · exact .inl ⟨r', hStep, hStart, hN, hAt'⟩
    · exact .inr (.inl ⟨index, mask, r', hStep, hStart, hN, hlt, hMarks, hAt'⟩)
  · have hEnd : r.i = r.n := by
      have := hAt.i_le
      omega
    exact .inr (.inr (hAt.step_end hEnd))

/-- Collecting a bit. -/
theorem At.step_mask (h64 : 64 ∣ R.size) (hAt : r.At R m) (h : r.step R = (none, some r')) :
    r'.start = r.start ∧ r'.n = r.n ∧ r'.At R m := by
  have hCases := hAt.step_cases h64
  simp only [h, Prod.mk.injEq, Option.some.injEq, reduceCtorEq, true_and, false_and, and_false,
    exists_false, or_false] at hCases
  obtain ⟨_, rfl, hStep⟩ := hCases
  exact hStep

/-- Committing a full word. -/
theorem At.step_commit (h64 : 64 ∣ R.size) (hAt : r.At R m)
    (h : r.step R = (some (index, mask), some r')) :
    r'.start = r.start ∧ r'.n = r.n ∧ r.i < r.n ∧ Marks R index mask (r.start + m) (r.start + r.i) ∧
      r'.At R (r.i + 1) := by
  have hCases := hAt.step_cases h64
  simp only [h, Prod.mk.injEq, Option.some.injEq, reduceCtorEq, false_and, and_false, exists_false,
    or_false, false_or] at hCases
  obtain ⟨_, _, _, ⟨⟨rfl, rfl⟩, rfl⟩, hStep⟩ := hCases
  exact hStep

/-- Committing the rest. -/
theorem At.step_commitEnd (h64 : 64 ∣ R.size) (hAt : r.At R m)
    (h : r.step R = (some (index, mask), none)) :
    m < r.n ∧ Marks R index mask (r.start + m) (r.start + r.n - 1) := by
  have hCases := hAt.step_cases h64
  simp only [h, Prod.mk.injEq, Option.some.injEq, reduceCtorEq, and_true, false_and, and_false,
    exists_false, or_false, false_or] at hCases
  obtain ⟨_, _, ⟨rfl, rfl⟩, hStep⟩ := hCases
  exact hStep

/-- Nothing is left to commit. -/
theorem At.step_rangeEnd (h64 : 64 ∣ R.size) (hAt : r.At R m) (h : r.step R = (none, none)) :
    m = r.n := by
  have hCases := hAt.step_cases h64
  simp only [h, Prod.mk.injEq, reduceCtorEq, and_self, false_and, and_false, true_and, exists_false,
    false_or] at hCases
  exact hCases

/-- The sequences whose bits a committed mask flips. -/
theorem mem_committed (hMarks : Marks R index mask lower upper) (hLower : r.start ≤ lower)
    (hUpper : upper ≤ r.start + r.n - 1) (hn : r.n ≤ R.size) {s : Int} :
    s ∈ r.committed R index mask ↔ lower ≤ s ∧ s ≤ upper := by
  simp only [committed, R.calculateAvailabilityIndices_eq, List.mem_filter, mem_seqRange,
    Bool.and_eq_true, beq_iff_eq, hMarks.iff]
  constructor
  · rintro ⟨⟨hlo, hhi⟩, t, htLo, htHi, hSlot⟩
    obtain rfl : t = s := slotOf_inj R.pos (by omega) (by omega) hSlot
    exact ⟨htLo, htHi⟩
  · rintro ⟨hlo, hhi⟩
    exact ⟨⟨by omega, by omega⟩, s, hlo, hhi, rfl⟩

theorem nodup_committed (r : PublishRange) (index : Nat) (mask : BitVec 64) :
    (r.committed R index mask).Nodup := (nodup_seqRange _ _).filter _

end PublishRange

end Calvera
