import Calvera.Results.Claiming

/-!
# Results — oversized batches

`try_batch_publish(n, f)` with more than the free slots is to be refused with
the number of missing slots, changing nothing. It is, as long as `n as i64` is
`n` and the highest sequence asked for is an `i64`. From `n = 2^63` on, `n as
i64` is negative: the call claims a negative number of sequences, returns `Ok`
and moves the cursor back, or it overflows.

* `oversized_refused_iff` — the batch is refused exactly when `n < 2^63` and the
  highest sequence asked for does not overflow.
* `oversized_accepted`    — a batch of `usize::MAX` events is accepted.
-/

namespace Calvera

open Calvera.Lib Calvera.Protocol

variable {E : Type} {R : RingSize} {T : Topology Nat} {w : Wiring} {tr : List (Event E)}

/-- The batch is refused with the number of missing slots: the call emits
nothing else, and leaves the state as it was. -/
def UniRefuses (R : RingSize) (w : Wiring) (s : UniSystem E) (n : Nat) (updates : Nat → E → E) :
    Prop :=
  ∃ missing : Nat, (missing : Int) = n - freeSlots R w s.memory ∧ ∃ s₁,
    UniSystem.step R w s (.producer (.call (.tryBatchPublish n updates))) = some (s₁, []) ∧
    Drives (UniSystem.alone R w) emitted s₁
      [.refused 0 missing, .returned 0 (.missingFreeSlots missing)] s

/-- The batch is refused with the number of missing slots: the call emits
nothing else, and leaves the state as it was. -/
def MultiRefuses (R : RingSize) (w : Wiring) (s : MultiSystem E) (h n : Nat)
    (updates : Nat → E → E) : Prop :=
  ∃ missing : Nat, (missing : Int) = n - freeSlots R w s.memory ∧ ∃ s₁,
    MultiSystem.step R w s (.producer (.handle h (.call (.tryBatchPublish n updates)))) =
      some (s₁, []) ∧
    Drives (MultiSystem.alone R w h) emitted s₁
      [.refused h missing, .returned h (.missingFreeSlots missing)] s

/-- From `2^63` on, `n as i64` is negative. -/
theorem asI64_neg {n : Nat} (hlo : 2 ^ 63 ≤ n) (hhi : n < 2 ^ 64) : asI64 n < 0 := by
  rw [asI64_of_ge hlo hhi]
  omega

-- ---------------------------------------------------------------------------
-- One producer
-- ---------------------------------------------------------------------------

namespace UniInv

variable {s : UniSystem E}

/-- **An oversized batch is refused exactly when its numbers fit.** -/
theorem refuses_iff (hInv : UniInv R T tr s) (hIdle : s.producer.pc = .idle)
    (hWired : Wired T .uniProducer w) {n : Nat} (hlt : freeSlots R w s.memory < n)
    (hn : n < 2 ^ 64) (updates : Nat → E → E) :
    UniRefuses R w s n updates ↔ n < 2 ^ 63 ∧ s.memory.cursor + n ≤ i64Max := by
  have hFree := hInv.freeSlots_nonneg hIdle hWired
  have hGe := hInv.sequence
  have hCursor := hInv.cursor
  set op : Op E := .tryBatchPublish n updates with hOp
  have hN : op.nI64 = asI64 n := rfl
  constructor
  · rintro ⟨missing, hMissing, s₁, hCall, hDrives⟩
    -- the addition did not overflow
    have hIn : InI64 (s.memory.cursor + op.nI64) := by
      by_contra hNot
      rw [hInv.call_overflowed hIdle hNot] at hCall
      cases hCall
    rw [hInv.call_eq hIdle op hIn] at hCall
    obtain ⟨rfl, -⟩ := Prod.mk.inj (Option.some.inj hCall)
    by_cases hSmall : n < 2 ^ 63
    · rw [hN, asI64_of_lt hSmall] at hIn
      exact ⟨hSmall, hIn.2⟩
    · -- a negative number of slots is always free
      have hNeg := asI64_neg (Nat.not_lt.mp hSmall) hn
      have hFits : op.nI64 ≤ freeSlots R w s.memory := by omega
      rcases hInv.alone_claimed hIdle hWired hFits with ⟨s', h'⟩ | ⟨-, s', h'⟩
      · cases (hDrives.unique h').1
      · cases (hDrives.unique h').1
  · rintro ⟨hSmall, hMax⟩
    have hIn : InI64 (s.memory.cursor + op.nI64) := by
      rw [hN, asI64_of_lt hSmall]
      simp only [InI64, i64Min]
      omega
    have hEq := missing_eq hSmall hFree hlt
    refine ⟨(n - freeSlots R w s.memory).toNat, by omega, _, hInv.call_eq hIdle op hIn, ?_⟩
    have hDrives := hInv.alone_refused hIdle hWired hIn hEq.symm
      (by rw [hN, asI64_of_lt hSmall]; exact hlt)
    rwa [show op.spins = false from rfl, if_neg (by simp), if_neg (by simp),
      UniSystem.atPc_self hIdle] at hDrives

end UniInv

-- ---------------------------------------------------------------------------
-- Many producers
-- ---------------------------------------------------------------------------

namespace MultiInv

variable {s : MultiSystem E} {h : Nat}

/-- **An oversized batch is refused exactly when its numbers fit.** -/
theorem refuses_iff (hInv : MultiInv R T tr s) (hIdle : (s.producer.handles h).pc = .idle)
    (hWired : Wired T .multiProducer w) {n : Nat} (hlt : freeSlots R w s.memory < n)
    (hn : n < 2 ^ 64) (updates : Nat → E → E) :
    MultiRefuses R w s h n updates ↔ n < 2 ^ 63 ∧ s.memory.cursor + n ≤ i64Max := by
  have hFree := hInv.freeSlots_nonneg hWired
  have hGe := hInv.cursor_ge
  set op : Op E := .tryBatchPublish n updates with hOp
  have hN : op.nI64 = asI64 n := rfl
  have hCall := call_eq (R := R) (w := w) hIdle op
  constructor
  · rintro ⟨missing, hMissing, s₁, hCall', hDrives⟩
    rw [hCall] at hCall'
    obtain ⟨rfl, -⟩ := Prod.mk.inj (Option.some.inj hCall')
    -- the addition did not overflow
    have hIn : InI64 (s.memory.cursor + op.nI64) := by
      by_contra hNot
      cases (hDrives.unique (alone_overflowed hNot)).1
    by_cases hSmall : n < 2 ^ 63
    · rw [hN, asI64_of_lt hSmall] at hIn
      exact ⟨hSmall, hIn.2⟩
    · -- a negative number of slots is always free
      have hNeg := asI64_neg (Nat.not_lt.mp hSmall) hn
      rcases hInv.alone_claimed hWired hIn (by omega) with ⟨s', h'⟩ | ⟨-, s', h'⟩
      · cases (hDrives.unique h').1
      · cases (hDrives.unique h').1
  · rintro ⟨hSmall, hMax⟩
    have hIn : InI64 (s.memory.cursor + op.nI64) := by
      rw [hN, asI64_of_lt hSmall]
      simp only [InI64, i64Min]
      omega
    have hEq := missing_eq hSmall hFree hlt
    refine ⟨(n - freeSlots R w s.memory).toNat, by omega, _, hCall, ?_⟩
    have hDrives := hInv.alone_refused (h := h) hWired hIn hEq.symm
      (by rw [hN, asI64_of_lt hSmall]; exact hlt)
    rwa [show op.spins = false from rfl, if_neg (by simp), if_neg (by simp),
      MultiSystem.atPc_self hIdle] at hDrives

end MultiInv

-- ---------------------------------------------------------------------------
-- Results
-- ---------------------------------------------------------------------------

/-- **Oversized batches are refused exactly when their numbers fit.** In every
reachable state of either disruptor, with the producer or the handle between
calls, and for every `usize` `n` greater than the number of free slots:
`try_batch_publish(n, f)` returns `Err(EMissingFreeSlots(n - free))` without
overflow, without running `f` and with everything as it was, if and only if
`n < 2^63` and the highest sequence asked for is at most `i64::MAX`. -/
theorem oversized_refused_iff (R : RingSize) (R' : MultiRingSize) (chain : BuildChain) (w w' : Wiring)
    (hBuild : chain.build buildUniProducerUnchecked = some w)
    (hBuild' : chain.build buildMultiProducerUnchecked = some w') (factory : Nat → E) :
    (∀ (tr : List (Event E)) (s : UniSystem E), UniRun R w factory tr s → s.producer.pc = .idle →
      ∀ (n : Nat) updates, freeSlots R w s.memory < n → n < 2 ^ 64 →
        (UniRefuses R w s n updates ↔ n < 2 ^ 63 ∧ s.memory.cursor + n ≤ i64Max)) ∧
    (∀ (tr : List (Event E)) (s : MultiSystem E) (h : Nat), MultiRun R' w' factory tr s →
      (s.producer.handles h).pc = .idle →
      ∀ (n : Nat) updates, freeSlots R'.toRingSize w' s.memory < n → n < 2 ^ 64 →
        (MultiRefuses R'.toRingSize w' s h n updates ↔
          n < 2 ^ 63 ∧ s.memory.cursor + n ≤ i64Max)) :=
  ⟨fun _ _ hRun hIdle _ updates hlt hn =>
      have hWired := BuildChain.wired_uni hBuild
      (UniRun.inv hWired hRun).refuses_iff hIdle hWired hlt hn updates,
    fun _ _ _ hRun hIdle _ updates hlt hn =>
      have hWired := BuildChain.wired_multi hBuild'
      (MultiRun.inv hWired hRun).refuses_iff hIdle hWired hlt hn updates⟩

/-- The fresh single-producer disruptor. -/
def freshUni : UniSystem Nat := UniSystem.init ring4 (pollerThenHandlerWiring .uniProducer) fun _ => 0

/-- The fresh multi-producer disruptor. -/
def freshMulti : MultiSystem Nat :=
  MultiSystem.init ring64.toRingSize (pollerThenHandlerWiring .multiProducer) fun _ => 0

theorem oversized_refused_iff_five :
    UniRefuses ring4 (pollerThenHandlerWiring .uniProducer) freshUni 5 (fun _ e => e) ∧
    MultiRefuses ring64.toRingSize (pollerThenHandlerWiring .multiProducer) freshMulti 0 65
      (fun _ e => e) := by
  obtain ⟨hUni, hMulti⟩ := oversized_refused_iff ring4 ring64 pollerThenHandler
    (pollerThenHandlerWiring .uniProducer) (pollerThenHandlerWiring .multiProducer) rfl rfl
    fun _ => (0 : Nat)
  refine ⟨(hUni [] freshUni .nil rfl 5 _ (by decide) (by decide)).mpr (by decide),
    (hMulti [] freshMulti 0 .nil rfl 65 _ (by decide) (by decide)).mpr (by decide)⟩

/-- **A batch of `usize::MAX` events is accepted** by a fresh disruptor with
fewer slots: `usize::MAX as i64` is `-1`, the call returns `Ok(-2)`, and the
cursor moves back from `-1` to `-2`. -/
theorem oversized_accepted :
    (freeSlots ring4 (pollerThenHandlerWiring .uniProducer) freshUni.memory = 4 ∧
      ¬ UniRefuses ring4 (pollerThenHandlerWiring .uniProducer) freshUni (2 ^ 64 - 1)
        (fun _ e => e) ∧
      ((execUni (.producer (.call (.tryBatchPublish (2 ^ 64 - 1) fun _ e => e)) ::
        uniTicks 3)).any fun x => x.2.filterMap Event.returned? = [(0, .ok (-2))] ∧
          x.1.memory.cursor = -2) = true) ∧
    (freeSlots ring64.toRingSize (pollerThenHandlerWiring .multiProducer) freshMulti.memory = 64 ∧
      ¬ MultiRefuses ring64.toRingSize (pollerThenHandlerWiring .multiProducer) freshMulti 0
        (2 ^ 64 - 1) (fun _ e => e) ∧
      ((execMulti (call 0 (.tryBatchPublish (2 ^ 64 - 1) fun _ e => e) :: ticks 0 5)).any fun x =>
        x.2.filterMap Event.returned? = [(0, .ok (-2))] ∧ x.1.memory.cursor = -2) = true) := by
  refine ⟨⟨by decide, ?_, by decide⟩, ⟨by decide, ?_, by decide⟩⟩
  · intro hRefuses
    have hWired : Wired pollerThenHandler.topology .uniProducer
        (pollerThenHandlerWiring .uniProducer) := BuildChain.wired_uni rfl
    have hRun : UniRun ring4 (pollerThenHandlerWiring .uniProducer) (fun _ => 0) [] freshUni := .nil
    have hInv := hRun.inv hWired
    have hFits := (hInv.refuses_iff rfl hWired (by decide) (by decide) _).mp hRefuses
    exact absurd hFits.1 (by decide)
  · intro hRefuses
    have hWired : Wired pollerThenHandler.topology .multiProducer
        (pollerThenHandlerWiring .multiProducer) := BuildChain.wired_multi rfl
    have hRun : MultiRun ring64 (pollerThenHandlerWiring .multiProducer) (fun _ => 0) []
        freshMulti := .nil
    have hInv := hRun.inv hWired
    have hFits := (hInv.refuses_iff rfl hWired (by decide) (by decide) _).mp hRefuses
    exact absurd hFits.1 (by decide)

end Calvera
