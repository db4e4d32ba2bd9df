import Calvera.Refinement.Scan
import Calvera.Results.SlotExclusion
import Mathlib.Data.Int.LeastGreatest
import Mathlib.Data.Set.BooleanAlgebra
import Mathlib.Order.Bounds.Basic
import Mathlib.Order.CompletePartialOrder

/-!
# Results — the scan of the availability bits

`MultiProducerBarrier::get_after` has no loop bound and no lock. It ends all
the same, on any bitfield, within one lap; and while producers publish, its
answer lies between what was published at its first load and at its last.

* `get_after_ends`  — the loop ends, stays in bounds, and answers within a lap.
* `get_after_exact` — the answer is exact up to concurrent publication.
-/

namespace Calvera

open Calvera.Lib

variable {E : Type}

/-- **`get_after` always terminates.** Whatever the bitfield holds, as long as
it does not change: the loop ends after at most `size + 1` tests, every word
index it loads is within the bitfield, and the answer is between `prev - 1` and
`prev + size - 1`; so the sequences it counts through are all `i64`. -/
theorem get_after_ends (R : MultiRingSize) (m : Memory E) (prev : Int) (hPrev : 0 ≤ prev)
    (hMax : prev + R.size ≤ i64Max) :
    ∃ tests r loads, tests ≤ R.size + 1 ∧
      Scan.call R.toRingSize (fun _ => m) prev tests = some (r, loads) ∧
      (GetAfter.scanStart prev).run R.toRingSize m (tests + 1) = some r ∧
      (∀ i ∈ loads, i < R.i64Needed) ∧ prev - 1 ≤ r ∧ r ≤ prev + R.size - 1 ∧
      (∀ s, prev ≤ s → s ≤ r + 1 → InI64 s) := by
  obtain ⟨n, hLe, hMatch, hStop, hRun⟩ := multiGetAfter_run R.dvd_size m prev
  obtain ⟨loads, hCall, -, hBounds⟩ : ∃ loads,
      Scan.call R.toRingSize (fun _ => m) prev (n + 1) = some (prev + n - 1, loads) ∧
        loads.length = (slotOf R.size prev % 64 + n) / 64 + 1 ∧ ∀ i ∈ loads, i < R.i64Needed :=
    Scan.call_eq R.dvd_size hMatch hStop
  refine ⟨n + 1, prev + n - 1, loads, by omega, hCall, hRun, hBounds, by omega, by omega,
    fun s hlo hhi => ?_⟩
  simp only [InI64, i64Min]
  omega

theorem get_after_ends_at_zero : ∃ tests r loads, tests ≤ ring64.size + 1 ∧
    Scan.call ring64.toRingSize (fun _ => Memory.init fun _ => 0) 0 tests = some (r, loads) ∧
    (∀ i ∈ loads, i < ring64.i64Needed) := by
  obtain ⟨tests, r, loads, hTests, hCall, -, hBounds, -⟩ :=
    get_after_ends ring64 (Memory.init fun _ => 0) 0 (by decide) (by decide)
  exact ⟨tests, r, loads, hTests, hCall, hBounds⟩

/-- The ends of the runs `prev..=r` of published sequences, counting the empty one. -/
def Contiguous (published : Set Int) (prev : Int) : Set Int :=
  {r | prev - 1 ≤ r ∧ ∀ s, prev ≤ s → s ≤ r → s ∈ published}

/-- There is a longest run, because the published sequences are bounded. -/
theorem Around.exists_greatest {R : RingSize} {prev : Int} {published : Set Int}
    (h : Around R prev published) : ∃ c, IsGreatest (Contiguous published prev) c := by
  have hBounded : ∀ r, r ∈ Contiguous published prev → r ≤ prev + R.size := by
    rintro r ⟨hGe, hAll⟩
    by_contra hgt
    have hSize := R.size_pos
    have := h.within r (hAll r (by omega) (le_refl r))
    omega
  have hEmpty : prev - 1 ∈ Contiguous published prev :=
    ⟨le_refl _, fun s hlo hhi => by omega⟩
  obtain ⟨c, hMem, hMax⟩ := Int.exists_greatest_of_bdd ⟨_, hBounded⟩ ⟨_, hEmpty⟩
  exact ⟨c, hMem, hMax⟩

/-- A scan stops within one lap: one round after `prev`, nothing is published yet. -/
theorem Scan.exists_stop {R : RingSize} {prev : Int} {mem : Nat → Memory E}
    {published : Nat → Set Int} (hPrev : 0 ≤ prev) (hChain : Monotone published)
    (hAround : ∀ j, Around R prev (published j)) (hShows : ∀ j, Shows R (mem j) (published j))
    {time : Nat → Nat} (hTime : Monotone time) :
    ∃ n ≤ R.size, (∀ d < n, Scan.Matches R (fun k => mem (time k)) prev d) ∧
      ¬ Scan.Matches R (fun k => mem (time k)) prev n := by
  classical
  have hLap : ∃ n ≤ R.size, ¬ Scan.Matches R (fun k => mem (time k)) prev n := by
    by_contra hAll
    push Not at hAll
    have hSize := R.size_pos
    -- `prev` itself was published when the scan began, and so it still is a round later
    have hFirst : prev + (0 : Nat) ∈ published _ :=
      ((hShows _).mem_iff (hAround _) hPrev (by omega) (by omega)).mp (hAll 0 (by omega))
    have hLater := hChain (hTime (Nat.div_le_div_right (c := 64)
      (by omega : slotOf R.size prev % 64 + 0 ≤ slotOf R.size prev % 64 + R.size))) hFirst
    have hBit := ((hShows _).mem_iff (hAround _) hPrev (by omega) (by omega)).mpr hLater
    have hEnd := hAll R.size (le_refl _)
    unfold Scan.Matches at hEnd
    rw [slotOf_add_size, oddRound_add_size R.pos] at hEnd
    rw [Int.natCast_zero, Int.add_zero] at hBit
    rw [hBit] at hEnd
    cases hOdd : oddRound R.size prev <;> simp [hOdd] at hEnd
  have hStop : ∃ n, ¬ Scan.Matches R (fun k => mem (time k)) prev n :=
    let ⟨n, _, hNot⟩ := hLap
    ⟨n, hNot⟩
  obtain ⟨n, hLe, hNot⟩ := hLap
  exact ⟨Nat.find hStop, (Nat.find_min' hStop hNot).trans hLe,
    fun d hd => not_not.mp (Nat.find_min hStop hd), Nat.find_spec hStop⟩

/-- **`get_after` is exact up to concurrent publication.** While the scan loads
one word after the other, the published set grows, and so the bitfield changes;
`mem j` shows `published j`, and load number `k` happens at `time k`. The answer
lies between the end of the longest run of published sequences from `prev` on at
the first load, and that at the last. With nothing published in between it is
exactly this end, and `prev - 1` when `prev` is not published. -/
theorem get_after_exact (R : MultiRingSize) (prev : Int) (hPrev : 0 ≤ prev)
    (mem : Nat → Memory E) (published : Nat → Set Int) (hChain : Monotone published)
    (hAround : ∀ j, Around R.toRingSize prev (published j))
    (hShows : ∀ j, Shows R.toRingSize (mem j) (published j)) (time : Nat → Nat)
    (hTime : Monotone time) :
    ∃ tests r loads c₀ c₁, tests ≤ R.size + 1 ∧
      Scan.call R.toRingSize (fun k => mem (time k)) prev tests = some (r, loads) ∧
      IsGreatest (Contiguous (published (time 0)) prev) c₀ ∧
      IsGreatest (Contiguous (published (time (loads.length - 1))) prev) c₁ ∧
      c₀ ≤ r ∧ r ≤ c₁ ∧
      (published (time (loads.length - 1)) = published (time 0) → r = c₀) ∧
      (prev ∉ published (time (loads.length - 1)) → r = prev - 1) := by
  obtain ⟨n, hLe, hMatch, hStop⟩ := Scan.exists_stop hPrev hChain hAround hShows hTime
  obtain ⟨loads, hCall, hLength, -⟩ := Scan.call_eq R.dvd_size hMatch hStop
  obtain ⟨c₀, hMem₀, hMax₀⟩ := (hAround (time 0)).exists_greatest
  obtain ⟨c₁, hMem₁, hMax₁⟩ := (hAround (time (loads.length - 1))).exists_greatest
  -- what matched was published when its word was loaded
  have hRun : prev + n - 1 ∈ Contiguous (published (time (loads.length - 1))) prev := by
    refine ⟨by omega, fun s hlo hhi => ?_⟩
    obtain ⟨d, rfl⟩ : ∃ d : Nat, s = prev + d := ⟨(s - prev).toNat, by omega⟩
    have hIn := ((hShows _).mem_iff (hAround _) hPrev hlo (by omega)).mp (hMatch d (by omega))
    exact hChain (hTime (by omega)) hIn
  -- what did not match was not published when the scan began
  have hEnd : c₀ ≤ prev + n - 1 := by
    by_contra hgt
    have hFirst := hMem₀.2 (prev + n) (by omega) (by omega)
    have hWithin := (hAround (time 0)).within _ hFirst
    have hLater := hChain (hTime (Nat.zero_le ((slotOf R.size prev % 64 + n) / 64))) hFirst
    exact hStop (((hShows _).mem_iff (hAround _) hPrev (by omega) hWithin).mpr hLater)
  refine ⟨n + 1, prev + n - 1, loads, c₀, c₁, by omega, hCall, ⟨hMem₀, hMax₀⟩, ⟨hMem₁, hMax₁⟩,
    hEnd, hMax₁ hRun, ?_, ?_⟩
  · intro hSame
    exact le_antisymm (hMax₀ (hSame ▸ hRun)) hEnd
  · intro hNot
    by_contra hne
    exact hNot (hRun.2 prev (le_refl _) (by omega))

/-- Sequence `0` is published at moment `1`. -/
def zeroPublished (j : Nat) : Set Int := {s | s = 0 ∧ 1 ≤ j}

/-- The bitfield at that moment. -/
def zeroMemory (j : Nat) : Memory Nat :=
  if j = 0 then .init fun _ => 0 else (Memory.init fun _ => 0).fetchXor 0 1#64

theorem get_after_exact_zero : ∃ tests r loads c₀ c₁, tests ≤ ring64.size + 1 ∧
    Scan.call ring64.toRingSize (fun k => zeroMemory k) 0 tests = some (r, loads) ∧
    IsGreatest (Contiguous (zeroPublished 0) 0) c₀ ∧
    IsGreatest (Contiguous (zeroPublished (loads.length - 1)) 0) c₁ ∧ c₀ ≤ r ∧ r ≤ c₁ := by
  have hBefore : ∀ i < ring64.size, (zeroMemory 0).bit i = true := by decide
  have hAfter : ∀ i < ring64.size, i ≠ 0 → (zeroMemory 1).bit i = true := by decide
  have hFlag : ring64.calculateAvailabilityFlag 0 =
      if (zeroMemory 1).bit (ring64.slotIndex 0) then 1#64 else 0#64 := by decide
  have hShows : ∀ j, Shows ring64.toRingSize (zeroMemory j) (zeroPublished j) := by
    intro j
    cases j with
    | zero => exact ⟨fun s hs => absurd hs.2 (by decide), fun i hi _ => hBefore i hi⟩
    | succ j =>
      refine ⟨?_, fun i hi hNot => hAfter i hi ?_⟩
      · intro s hs _
        obtain ⟨rfl, -⟩ := hs
        exact hFlag
      · intro hZero
        exact hNot 0 ⟨rfl, by omega⟩ hZero.symm
  obtain ⟨tests, r, loads, c₀, c₁, hTests, hCall, h₀, h₁, hGe, hLe, -⟩ :=
    get_after_exact ring64 0 (by decide) zeroMemory zeroPublished
      (fun i j hij s hs => ⟨hs.1, hs.2.trans hij⟩)
      (fun j => ⟨fun s hs => by rw [hs.1], fun s hlo hhi => by omega, fun s hs => by
        rw [hs.1]
        decide⟩) hShows id monotone_id
  exact ⟨tests, r, loads, c₀, c₁, hTests, hCall, h₀, h₁, hGe, hLe⟩

end Calvera
