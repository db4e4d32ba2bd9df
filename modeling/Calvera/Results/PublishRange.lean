import Calvera.Refinement.PublishEach

/-!
# Results — publishing a range

`publish_range_relaxed` collects a word before it flips it. For a reader this
is as good as publishing one sequence after the other: nothing else happens to
the bitfield, and after every `fetch_xor` a prefix of the range is published.

* `publish_range_one_by_one` — equality, frame and prefixes.
-/

namespace Calvera

open Calvera.Lib

variable {E : Type}

/-- **`publish_range_relaxed` equals publishing one by one, in order**, on any
bitfield and from any sequence. The loop ends; the bitfield it leaves is the one
after `publish(from), .., publish(from + n - 1)`; the bit of any slot outside of
the range is unchanged; and after each of its `fetch_xor` calls the bitfield is
that of publishing the first `ends k` of the range, more with each call and all
in the end. -/
theorem publish_range_one_by_one (R : MultiRingSize) (m : Memory E) (start : Int) (n : Nat) :
    ∃ commits, (PublishRange.new R.toRingSize start n).run R.toRingSize (n + 1) = some commits ∧
      (m.fetchXors commits).available =
        (m.publishEach R.toRingSize (seqRange start (start + n - 1))).available ∧
      (∀ i, (∀ s, start ≤ s → s < start + n → R.slotIndex s ≠ i) →
        (m.fetchXors commits).bit i = m.bit i) ∧
      ∃ ends : Nat → Int, ends 0 = 0 ∧ ends commits.length = n ∧
        (∀ k < commits.length, ends k < ends (k + 1)) ∧
        ∀ k ≤ commits.length, (m.fetchXors (commits.take k)).available =
          (m.publishEach R.toRingSize (seqRange start (start + ends k - 1))).available := by
  have hAt := PublishRange.new_at R.toRingSize start (Int.natCast_nonneg n)
  obtain ⟨commits, hRun, hCommits⟩ := hAt.run_commits R.dvd_size 
    (by simp [PublishRange.new] : _ = _ + (n : Int))
  rw [PublishRange.new_start, PublishRange.new_n] at hCommits
  obtain ⟨ends, hFirst, hLast, hGrow, hPrefix⟩ := hCommits.prefixes m
  rw [Int.add_zero] at hPrefix
  have hAll := (hPrefix commits.length (le_refl _)).2
  rw [List.take_length, hLast] at hAll
  refine ⟨commits, hRun, hAll, fun i hOutside => ?_, ends, hFirst, hLast, hGrow,
    fun k hk => (hPrefix k hk).2⟩
  -- the slot does not occur in the range
  have hNone : (seqRange start (start + n - 1)).countP
      (fun s => slotOf R.size s = i) = 0 := by
    rw [List.countP_eq_zero]
    intro s hs hSlot
    obtain ⟨hlo, hhi⟩ := mem_seqRange.mp hs
    exact hOutside s hlo (by omega) (by rw [R.slotIndex_eq]; simpa using hSlot)
  have hBit := m.publishEach_bit (R := R.toRingSize) (seqRange start (start + n - 1)) i
  rw [Memory.bit, ← hAll, hNone] at hBit
  simpa [Memory.bit] using hBit

end Calvera
