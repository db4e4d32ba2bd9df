import Calvera.Refinement.Iterators
import Calvera.Results.Polling

/-!
# Results — the size contract of the iterators

`ExactSizeIterator` promises that `size_hint` is exact. `&mut EventGuard`
implements the trait with a `len` of its own and leaves `size_hint` at the
default, which knows nothing; `MutBatchIter` overrides `size_hint`.

* `size_contract_iff`  — `len` of a guard is always exact and its `size_hint`
  never; the size hint of a batch is, unless the batch is so long that `n as i64`
  is negative, or ends at the last sequence there is.
* `guard_hint_unknown` — a guard with one event to yield.
-/

namespace Calvera

open Calvera.Lib Calvera.Protocol

variable {E : Type}

-- ---------------------------------------------------------------------------
-- Guards
-- ---------------------------------------------------------------------------

/-- Before every call of `next`, `len` is the number of events still to come.
A guard that ends below `i64::MAX` computes it without overflow. -/
structure EventGuard.LenExact (guard : EventGuard) : Prop where
  exact : ∀ k, ∃ items, Yields EventGuard.next ((advance EventGuard.next)^[k] guard) items ∧
    ((advance EventGuard.next)^[k] guard).len = items.length
  inI64 : guard.available < i64Max → ∀ k,
    WindowInI64 ((advance EventGuard.next)^[k] guard).sequence
      ((advance EventGuard.next)^[k] guard).available

/-- What `ExactSizeIterator` asks of a guard: `len` and `size_hint` are both the
number of events still to come. -/
structure EventGuard.SizeContract (guard : EventGuard) : Prop where
  len : guard.LenExact
  hint : ExactSize EventGuard.next EventGuard.sizeHint guard

theorem EventGuard.not_sizeContract (guard : EventGuard) : ¬ guard.SizeContract :=
  fun h => not_exactSize_default h.hint

/-- The window of a guard that a poller returned has at most as many sequences
as the ring has slots, so that counting them does not overflow. -/
theorem EventGuard.lenExact {R : RingSize} {guard : EventGuard} (hFirst : 0 ≤ guard.sequence)
    (hle : guard.sequence ≤ guard.available + 1)
    (hSize : guard.available - guard.sequence + 1 ≤ R.size) : guard.LenExact := by
  have hRing := R.size_le
  have hCount : guard.available - guard.sequence + 1 ≤ i64Max := by
    simp only [i64Max]
    omega
  constructor
  · intro k
    refine ⟨_, EventGuard.walks.yields _, ?_⟩
    rw [EventGuard.len, eventGuardLen, EventGuard.walks.last_iterate,
      EventGuard.walks.first_iterate]
    exact asUnsigned_count (by omega) (by omega)
  · intro hMax k
    rw [EventGuard.walks.last_iterate, EventGuard.walks.first_iterate]
    have hMin : i64Min ≤ guard.sequence := le_trans (by decide) hFirst
    exact WindowInI64.of_le hMin (by omega) (by omega) (.inr hMax)

-- ---------------------------------------------------------------------------
-- Batches
-- ---------------------------------------------------------------------------

/-- What is promised of an iterator over `n` slots. -/
structure MutBatchIter.SizeContract (iter : MutBatchIter) (n : Nat) : Prop where
  start : iter.sizeHint = (n, some n)
  hint : ExactSize MutBatchIter.next MutBatchIter.sizeHint iter
  inI64 : ∀ k, WindowInI64 ((advance MutBatchIter.next)^[k] iter).current
    ((advance MutBatchIter.next)^[k] iter).last

theorem MutBatchIter.sizeHint_eq {iter : MutBatchIter} (hle : iter.current ≤ iter.last + 1)
    (hCount : iter.last - iter.current + 1 ≤ i64Max) :
    iter.sizeHint = ((seqRange iter.current iter.last).length,
      some (seqRange iter.current iter.last).length) := by
  rw [sizeHint, remaining, asUnsigned_count hle hCount]

/-- **The size hint of a window of `n` slots is exact** at every point of the
iteration; only taking the very last sequence overflows. -/
theorem MutBatchIter.sizeContract_iff {iter : MutBatchIter} {n : Nat} (hFirst : i64Min ≤ iter.current)
    (hLast : iter.last ≤ i64Max) (hCount : iter.last - iter.current + 1 = n) (hn : n < 2 ^ 63) :
    iter.SizeContract n ↔ n = 0 ∨ iter.last < i64Max := by
  have hLength : (iter.last - iter.current + 1).toNat = n := by omega
  have hMax : (n : Int) ≤ i64Max := by simp only [i64Max]; omega
  constructor
  · intro h
    by_contra hne
    -- after `n - 1` calls the iterator is at its last sequence, `i64::MAX`
    have hNext := (h.inI64 (n - 1)).next
    rw [MutBatchIter.walks.last_iterate, MutBatchIter.walks.first_iterate, hLength] at hNext
    have := (hNext (by omega)).2
    omega
  · intro hHolds
    refine ⟨?_, fun k => ⟨_, MutBatchIter.walks.yields _, sizeHint_eq ?_ ?_⟩, fun k => ?_⟩
    · rw [sizeHint_eq (by omega) (by omega), length_seqRange, hLength]
    · rw [MutBatchIter.walks.last_iterate, MutBatchIter.walks.first_iterate]
      omega
    · rw [MutBatchIter.walks.last_iterate, MutBatchIter.walks.first_iterate]
      omega
    · rw [MutBatchIter.walks.last_iterate, MutBatchIter.walks.first_iterate, hLength]
      exact WindowInI64.of_le hFirst hCount hn hHolds

/-- From `2^63` on, `n as i64` is negative: the iterator yields nothing, and its
size hint is `n`. -/
theorem MutBatchIter.not_sizeContract_of_ge {n : Nat} (hlo : 2 ^ 63 ≤ n) (hhi : n < 2 ^ 64)
    (lower : Int) : ¬ (MutBatchIter.new lower (lower + asI64 n - 1)).SizeContract n := by
  intro h
  have hNegative := asI64_of_ge hlo hhi
  have hYields : Yields MutBatchIter.next (MutBatchIter.new lower (lower + asI64 n - 1)) [] :=
    .done (MutBatchIter.next_eq_none.mpr (by simp only [MutBatchIter.new]; omega))
  have hStart := h.start.symm.trans (h.hint.start hYields)
  have hZero : n = 0 := congrArg Prod.fst hStart
  omega

/-- The iterator that a batch of `n` slots from `lower` on is given. -/
theorem MutBatchIter.new_sizeContract_iff {n : Nat} {lower : Int} (hn : n < 2 ^ 64)
    (hLower : InI64 lower) (hUpper : InI64 (lower + asI64 n - 1)) :
    (MutBatchIter.new lower (lower + asI64 n - 1)).SizeContract n ↔
      n < 2 ^ 63 ∧ (n = 0 ∨ lower + asI64 n - 1 < i64Max) := by
  rcases Nat.lt_or_ge n (2 ^ 63) with hlt | hge
  · have hCount : lower + asI64 n - 1 - lower + 1 = n := by
      rw [asI64_of_lt hlt]
      omega
    rw [and_iff_right hlt]
    exact MutBatchIter.sizeContract_iff hLower.1 hUpper.2 hCount hlt
  · have hNot := MutBatchIter.not_sizeContract_of_ge hge hn lower
    exact ⟨fun h => (hNot h).elim, fun h => absurd h.1 (Nat.not_lt.mpr hge)⟩

-- ---------------------------------------------------------------------------
-- Running disruptors
-- ---------------------------------------------------------------------------

/-- **When the size contract of the iterators is kept.** In every reachable
state of either disruptor, `len` of an open guard is exact from there on, but
its `size_hint` is not, whatever the window. The iterator a closure has in hand
keeps its contract for the slots it has not taken unless it is to yield
`i64::MAX`. In particular a new one does for every `n`, a `usize`, that
`n as i64` leaves as it is. -/
theorem size_contract_iff (R : RingSize) (R' : MultiRingSize) (chain : BuildChain)
    (w w' : Wiring) (hBuild : chain.build buildUniProducerUnchecked = some w)
    (hBuild' : chain.build buildMultiProducerUnchecked = some w') (factory : Nat → E) :
    (∀ tr s, UniRun R w factory tr s →
      (∀ c spec guard, w.consumers[c]? = some spec → (s.consumers c).openGuard = some guard →
        guard.LenExact ∧ ¬ guard.SizeContract) ∧
      ∀ op iter k, s.producer.pc = .updates op iter k → k ≤ op.n ∧
        (iter.SizeContract (op.n - k) ↔ op.n - k = 0 ∨ iter.last < i64Max)) ∧
    (∀ tr s, MultiRun R' w' factory tr s →
      (∀ c spec guard, w'.consumers[c]? = some spec → (s.consumers c).openGuard = some guard →
        guard.LenExact ∧ ¬ guard.SizeContract) ∧
      ∀ h op iter k, (s.producer.handles h).pc = .updates op iter k → k ≤ op.n ∧
        (iter.SizeContract (op.n - k) ↔ op.n - k = 0 ∨ iter.last < i64Max)) ∧
    ∀ n lower, n < 2 ^ 64 → InI64 lower → InI64 (lower + asI64 n - 1) →
      ((MutBatchIter.new lower (lower + asI64 n - 1)).SizeContract n ↔
        n < 2 ^ 63 ∧ (n = 0 ∨ lower + asI64 n - 1 < i64Max)) := by
  have hMin : i64Min ≤ 0 := by decide
  refine ⟨fun tr s hRun => ⟨?_, ?_⟩, fun tr s hRun => ⟨?_, ?_⟩,
    fun n lower hn hLower hUpper => MutBatchIter.new_sizeContract_iff hn hLower hUpper⟩
  · intro c spec guard hSpec hGuard
    have hD := UniRun.disruptor (BuildChain.wired_uni hBuild) factory (R := R)
    obtain ⟨hFirst, hle, -, hSize⟩ := hD.guardWindow hRun hSpec hGuard
    exact ⟨guard.lenExact hFirst hle hSize, guard.not_sizeContract⟩
  · intro op iter k hPc
    have hInv := hRun.inv (BuildChain.wired_uni hBuild)
    obtain ⟨hRange, hk, hFirst, hLast, hCount⟩ := hInv.batchWindow hPc
    have hn : op.n - k < 2 ^ 63 := Nat.lt_of_le_of_lt (Nat.sub_le _ _) hRange
    exact ⟨hk, MutBatchIter.sizeContract_iff (hMin.trans hFirst) hLast hCount hn⟩
  · intro c spec guard hSpec hGuard
    have hD := MultiRun.disruptor (BuildChain.wired_multi hBuild') factory (R := R')
    obtain ⟨hFirst, hle, -, hSize⟩ := hD.guardWindow hRun hSpec hGuard
    exact ⟨guard.lenExact hFirst hle hSize, guard.not_sizeContract⟩
  · intro h op iter k hPc
    have hInv := hRun.inv (BuildChain.wired_multi hBuild')
    obtain ⟨hRange, hk, hFirst, hLast, hCount⟩ := hInv.batchWindow hPc
    have hn : op.n - k < 2 ^ 63 := Nat.lt_of_le_of_lt (Nat.sub_le _ _) hRange
    exact ⟨hk, MutBatchIter.sizeContract_iff (hMin.trans hFirst) hLast hCount hn⟩

/-- One event is published, and the poller has it in a guard. -/
def oneInGuard : List (Act (UniAct Nat)) :=
  [.producer (.call (.publish (· + 1)))] ++ uniTicks 3 ++ takeTicks u64Max

theorem size_contract_iff_one : ∃ tr s,
    UniRun ring4 (pollerThenHandlerWiring .uniProducer) (fun _ => 0) tr s ∧
      (s.consumers 0).openGuard = some ⟨0, 0⟩ ∧ (EventGuard.mk 0 0).LenExact ∧
      (MutBatchIter.new 0 (0 + asI64 3 - 1)).SizeContract 3 := by
  have hExec : (execUni oneInGuard).any (fun x =>
      (x.1.consumers 0).openGuard = some ⟨0, 0⟩) = true := by
    decide
  obtain ⟨tr, s, hRun, hState⟩ := Run.of_schedule
    (by decide : ∀ a ∈ oneInGuard, UniAct.InRange a) hExec
  have hGuard := of_decide_eq_true hState
  obtain ⟨hUni, -, hNew⟩ := size_contract_iff ring4 ring64 pollerThenHandler
    (pollerThenHandlerWiring .uniProducer) (pollerThenHandlerWiring .multiProducer) rfl rfl
    fun _ => (0 : Nat)
  exact ⟨tr, s, hRun, hGuard, ((hUni tr s hRun).1 0 _ ⟨0, 0⟩ rfl hGuard).1,
    (hNew 3 0 (by decide) (by decide) (by decide)).mpr (by decide)⟩

/-- **A guard that yields one event says it knows nothing of how many.** -/
theorem guard_hint_unknown : ∃ tr s guard,
    UniRun ring4 (pollerThenHandlerWiring .uniProducer) (fun _ => 0) tr s ∧
      (s.consumers 0).openGuard = some guard ∧ Yields EventGuard.next guard [0] ∧
      guard.len = 1 ∧ guard.sizeHint = (0, none) ∧
      ¬ ExactSize EventGuard.next EventGuard.sizeHint guard := by
  have hExec : (execUni oneInGuard).any (fun x =>
      (x.1.consumers 0).openGuard = some ⟨0, 0⟩) = true := by
    decide
  obtain ⟨tr, s, hRun, hState⟩ := Run.of_schedule
    (by decide : ∀ a ∈ oneInGuard, UniAct.InRange a) hExec
  exact ⟨tr, s, ⟨0, 0⟩, hRun, of_decide_eq_true hState, EventGuard.walks.yields _, rfl, rfl,
    not_exactSize_default⟩

end Calvera
