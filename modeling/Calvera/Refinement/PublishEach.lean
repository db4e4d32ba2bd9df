import Calvera.Refinement.PublishRange
import Mathlib.Data.List.Count

/-!
# Refinement — publishing a range, and publishing one by one

Publishing a sequence flips the bit of its slot, so a list of sequences flips
the bit of a slot as often as the slot occurs (`publishEach_bit`). A mask that
`publish_range_relaxed` commits holds at most one word of consecutive
sequences, which have different slots; committing it is publishing them one by
one (`Marks.fetchXor_eq`).

* `PublishRange.run_commits` — the loop commits consecutive blocks.
-/

namespace Calvera

open Calvera.Lib

variable {E : Type} {R : RingSize}

-- ---------------------------------------------------------------------------
-- One by one
-- ---------------------------------------------------------------------------

namespace Memory

/-- `publish(sequence)`. -/
def publish (R : RingSize) (m : Memory E) (sequence : Int) : Memory E :=
  let (index, mask) := publishMask R sequence
  m.fetchXor index mask

/-- Publish one sequence after the other. -/
def publishEach (R : RingSize) (m : Memory E) (sequences : List Int) : Memory E :=
  sequences.foldl (publish R) m

/-- One `fetch_xor` after the other. -/
def fetchXors (m : Memory E) (commits : List (Nat × BitVec 64)) : Memory E :=
  commits.foldl (fun m commit => m.fetchXor commit.1 commit.2) m

/-- The bits are all there is in the bitfield. -/
theorem available_ext {m m' : Memory E} (h : ∀ i, m.bit i = m'.bit i) :
    m.available = m'.available := by
  funext index
  apply BitVec.eq_of_getLsbD_eq
  intro b hb
  have hBit := h (64 * index + b)
  unfold bit at hBit
  rwa [show (64 * index + b) / 64 = index by omega, show (64 * index + b) % 64 = b by omega] at hBit

theorem publish_bit (m : Memory E) (s : Int) (i : Nat) :
    (m.publish R s).bit i = (m.bit i ^^ decide (slotOf R.size s = i)) := by
  have hMask : Marks R (publishMask R s).1 (publishMask R s).2 s s := publishMask_marks rfl
  have hMarks := hMask.iff i
  have hOne : (∃ t, s ≤ t ∧ t ≤ s ∧ slotOf R.size t = i) ↔ slotOf R.size s = i := by
    constructor
    · rintro ⟨t, hlo, hhi, hSlot⟩
      obtain rfl : t = s := by omega
      exact hSlot
    · exact fun hSlot => ⟨s, le_refl s, le_refl s, hSlot⟩
  rw [hOne] at hMarks
  rw [publish, fetchXor_bit]
  by_cases hSlot : slotOf R.size s = i
  · rw [if_pos (hMarks.mpr hSlot)]
    simp [hSlot]
  · rw [if_neg fun h => hSlot (hMarks.mp h)]
    simp [hSlot]

/-- **A slot is flipped as often as it occurs.** -/
theorem publishEach_bit (m : Memory E) (sequences : List Int) (i : Nat) :
    (m.publishEach R sequences).bit i =
      (m.bit i ^^ decide (sequences.countP (fun s => slotOf R.size s = i) % 2 = 1)) := by
  induction sequences generalizing m with
  | nil => simp [publishEach]
  | cons s rest ih =>
    show ((m.publish R s).publishEach R rest).bit i = _
    rw [ih, publish_bit, List.countP_cons]
    by_cases hSlot : slotOf R.size s = i
    · rcases Nat.mod_two_eq_zero_or_one (rest.countP fun s => slotOf R.size s = i) with hEven | hOdd
      · simp [hSlot, hEven, Nat.add_mod]
      · simp [hSlot, hOdd, Nat.add_mod]
    · simp [hSlot]

theorem publishEach_append (m : Memory E) (sequences rest : List Int) :
    m.publishEach R (sequences ++ rest) = (m.publishEach R sequences).publishEach R rest :=
  List.foldl_append

/-- Publishing depends on the bitfield only. -/
theorem publishEach_available {m m' : Memory E} (h : m.available = m'.available)
    (sequences : List Int) :
    (m.publishEach R sequences).available = (m'.publishEach R sequences).available := by
  refine available_ext fun i => ?_
  have hBit : m.bit i = m'.bit i := by rw [bit, bit, h]
  rw [publishEach_bit, publishEach_bit, hBit]

end Memory

-- ---------------------------------------------------------------------------
-- One block
-- ---------------------------------------------------------------------------

/-- Within one round a slot occurs at most once. -/
theorem countP_slotOf {lower upper : Int} (hRound : upper < lower + R.size) (i : Nat) :
    (seqRange lower upper).countP (fun s => slotOf R.size s = i) % 2 = 1 ↔
      ∃ s, lower ≤ s ∧ s ≤ upper ∧ slotOf R.size s = i := by
  by_cases hSome : ∃ s, lower ≤ s ∧ s ≤ upper ∧ slotOf R.size s = i
  · obtain ⟨s, hlo, hhi, hSlot⟩ := hSome
    have hCount : (seqRange lower upper).countP (fun t => slotOf R.size t = i) =
        (seqRange lower upper).count s := by
      rw [List.count]
      refine List.countP_congr fun t ht => ?_
      obtain ⟨htLo, htHi⟩ := mem_seqRange.mp ht
      simp only [decide_eq_true_eq, beq_iff_eq]
      refine ⟨fun h => slotOf_inj R.pos (by omega) (by omega) (h.trans hSlot.symm), ?_⟩
      rintro rfl
      exact hSlot
    rw [hCount, List.count_eq_one_of_mem (nodup_seqRange _ _) (mem_seqRange.mpr ⟨hlo, hhi⟩)]
    exact iff_of_true rfl ⟨s, hlo, hhi, hSlot⟩
  · have hCount : (seqRange lower upper).countP (fun t => slotOf R.size t = i) = 0 := by
      rw [List.countP_eq_zero]
      intro t ht hSlot
      obtain ⟨htLo, htHi⟩ := mem_seqRange.mp ht
      exact hSome ⟨t, htLo, htHi, by simpa using hSlot⟩
    rw [hCount]
    exact iff_of_false (by decide) hSome

/-- **Committing a mask is publishing its sequences one by one.** -/
theorem Marks.fetchXor_eq {index : Nat} {mask : BitVec 64} {lower upper : Int}
    (hMarks : Marks R index mask lower upper) (hRound : upper < lower + R.size) (m : Memory E) :
    (m.fetchXor index mask).available = (m.publishEach R (seqRange lower upper)).available := by
  refine Memory.available_ext fun i => ?_
  have hCount := countP_slotOf hRound i
  rw [Memory.fetchXor_bit, Memory.publishEach_bit]
  by_cases hSome : ∃ s, lower ≤ s ∧ s ≤ upper ∧ slotOf R.size s = i
  · rw [if_pos ((hMarks.iff i).mpr hSome), decide_eq_true (hCount.mpr hSome), Bool.xor_true]
  · rw [if_neg fun h => hSome ((hMarks.iff i).mp h), decide_eq_false fun h => hSome (hCount.mp h),
      Bool.xor_false]

-- ---------------------------------------------------------------------------
-- The whole loop
-- ---------------------------------------------------------------------------

namespace PublishRange

/-- The `fetch_xor` calls of the loop from `r` on, if it ends within `fuel`
iterations. -/
def run (R : RingSize) : Nat → PublishRange → Option (List (Nat × BitVec 64))
  | 0, _ => none
  | fuel + 1, r =>
    match r.step R with
    | (commit, none) => some commit.toList
    | (commit, some r') => (run R fuel r').map (commit.toList ++ ·)

/-- These commits flip the offsets `m..n` of a range, block after block. -/
inductive Commits (R : RingSize) (start : Int) : Int → Int → List (Nat × BitVec 64) → Prop
  | nil {m : Int} : Commits R start m m []
  | cons {m m' n : Int} {index : Nat} {mask : BitVec 64} {rest : List (Nat × BitVec 64)} :
      m < m' → m' ≤ m + R.size → Marks R index mask (start + m) (start + m' - 1) →
      Commits R start m' n rest → Commits R start m n ((index, mask) :: rest)

variable {start m n : Int} {commits : List (Nat × BitVec 64)}

namespace Commits

theorem le (h : Commits R start m n commits) : m ≤ n := by
  induction h with
  | nil => exact le_refl _
  | cons hLt _ _ _ ih => omega

/-- **After each commit a prefix of the range is published**, and the prefixes grow. -/
theorem prefixes (h : Commits R start m n commits) (memory : Memory E) :
    ∃ ends : Nat → Int, ends 0 = m ∧ ends commits.length = n ∧
      (∀ k < commits.length, ends k < ends (k + 1)) ∧
      ∀ k ≤ commits.length, m ≤ ends k ∧ (memory.fetchXors (commits.take k)).available =
        (memory.publishEach R (seqRange (start + m) (start + ends k - 1))).available := by
  have hNone : ∀ (memory : Memory E) (m : Int),
      memory.publishEach R (seqRange (start + m) (start + m - 1)) = memory := by
    intro memory m
    rw [seqRange_eq_nil (by omega)]
    rfl
  induction h generalizing memory with
  | @nil m =>
    refine ⟨fun _ => m, rfl, rfl, fun k hk => absurd hk (Nat.not_lt_zero k), fun k _ => ?_⟩
    refine ⟨le_refl m, ?_⟩
    rw [hNone, List.take_nil]
    rfl
  | @cons m m' n index mask rest hLt hRound hMarks hRest ih =>
    obtain ⟨ends, hFirst, hLast, hGrow, hPrefix⟩ := ih (memory.fetchXor index mask)
    have hGrow' : ∀ k < rest.length + 1, Nat.casesOn k m ends < ends k := by
      intro k hk
      cases k with
      | zero => exact lt_of_lt_of_eq hLt hFirst.symm
      | succ k => exact hGrow k (by omega)
    refine ⟨fun k => Nat.casesOn k m ends, rfl, hLast, hGrow', fun k hk => ?_⟩
    cases k with
    | zero => exact ⟨le_refl m, congrArg Memory.available (hNone memory m).symm⟩
    | succ k =>
      obtain ⟨hGe, hEq⟩ := hPrefix k (Nat.le_of_succ_le_succ hk)
      refine ⟨by show m ≤ ends k; omega, ?_⟩
      -- the first block, then the rest of the prefix
      have hBlock := hMarks.fetchXor_eq (by omega) memory
      have hMeet : seqRange (start + m) (start + m' - 1) ++
          seqRange (start + m' - 1 + 1) (start + ends k - 1) =
          seqRange (start + m) (start + ends k - 1) := seqRange_append (by omega) (by omega)
      rw [Int.sub_add_cancel] at hMeet
      calc (memory.fetchXors (((index, mask) :: rest).take (k + 1))).available
          = ((memory.fetchXor index mask).fetchXors (rest.take k)).available := rfl
        _ = ((memory.fetchXor index mask).publishEach R
              (seqRange (start + m') (start + ends k - 1))).available := hEq
        _ = ((memory.publishEach R (seqRange (start + m) (start + m' - 1))).publishEach R
              (seqRange (start + m') (start + ends k - 1))).available :=
          Memory.publishEach_available hBlock _
        _ = (memory.publishEach R (seqRange (start + m) (start + ends k - 1))).available := by
          rw [← Memory.publishEach_append, hMeet]

end Commits

/-- **The loop commits consecutive blocks** until the range is covered; it ends
after one more iteration than there are sequences to go. -/
theorem At.run_commits (h64 : 64 ∣ R.size) {r : PublishRange} (h : r.At R m) {rest : Nat}
    (hRest : r.n = r.i + rest) :
    ∃ commits, run R (rest + 1) r = some commits ∧ Commits R r.start m r.n commits := by
  have h64' := Nat.le_of_dvd R.pos h64
  induction rest generalizing r m with
  | zero =>
    have hWord := h.le_word
    rcases h.step_end (by omega) with ⟨index, mask, hStep, hMore, hMarks⟩ | ⟨hStep, rfl⟩
    · exact ⟨[(index, mask)], by rw [run, hStep]; rfl, .cons hMore (by omega) hMarks .nil⟩
    · exact ⟨[], by rw [run, hStep]; rfl, .nil⟩
  | succ rest ih =>
    have hWord := h.le_word
    have hle := h.le_i
    obtain ⟨commit, r', m', hStep, hStart, hN, hI, hAt, hCommit⟩ := h.step_more h64 (by omega)
    obtain ⟨commits, hRun, hCommits⟩ := ih hAt (by omega)
    rw [hStart, hN] at hCommits
    refine ⟨commit.toList ++ commits, ?_, ?_⟩
    · rw [run, hStep]
      show (run R (rest + 1) r').map _ = _
      rw [hRun]
      rfl
    · rcases hCommit with ⟨rfl, rfl⟩ | ⟨index, mask, rfl, rfl, hMarks⟩
      · exact hCommits
      · have hLast : r.start + (r.i + 1) - 1 = r.start + r.i := by omega
        exact .cons (by omega) (by omega) (hLast ▸ hMarks) hCommits

end PublishRange

end Calvera
