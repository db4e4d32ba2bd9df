import Calvera.Refinement.WeakMulti
import Calvera.Refinement.WeakUni
import Calvera.Refinement.Weakening
import Calvera.Results.SlotExclusion

/-!
# Results — data races

The slots of the ring are plain memory: their accesses are ordered by the
atomics of the barriers alone. The orderings and fences of the source are
enough, for any wiring and any number of handles; and each of them is needed,
except for the ordering of the exchange by which a handle claims.

* `uni_raceFree_iff`   — the orderings that a `UniProducer` disruptor needs.
* `multi_raceFree_iff` — those that a `MultiProducer` disruptor needs.
-/

namespace Calvera

open Calvera.Lib Calvera.Lib.ReleaseAcquire

variable {A E P : Type} {o o' : Orderings} {R : RingSize}

-- ---------------------------------------------------------------------------
-- Races in schedules
-- ---------------------------------------------------------------------------

/-- Some two accesses to one slot race. -/
def racy (R : RingSize) (log : List (Access Party Int)) : Bool :=
  log.zipIdx.any fun (a, i) => log.zipIdx.any fun (b, j) =>
    decide (i < j ∧ R.slot a.target = R.slot b.target ∧ (a.isWrite = true ∨ b.isWrite = true) ∧
      i ∉ b.before)

theorem WeakSystem.not_raceFree {s : WeakSystem P E} (h : racy R s.machine.log = true) :
    ¬ s.RaceFree R := by
  simp only [racy, List.any_eq_true, decide_eq_true_eq, Prod.exists] at h
  obtain ⟨a, i, hi, b, j, hj, hlt, hSlot, hWrite, hBefore⟩ := h
  rw [List.mem_zipIdx_iff_getElem?] at hi hj
  exact fun hFree => hBefore (hFree i j a b hlt hi hj hSlot hWrite)

/-- A schedule; the steps at the places in `late` find the second write of the
atomic they load, the others the first. -/
def finding (late : List Nat) (as : List (Act A)) : List (WeakAct A) :=
  as.zipIdx.map fun (act, i) => .step act (if i ∈ late then 1 else 0)

/-- A poller. -/
def singlePoller : BuildChain := .sc (.first .poller .new)

/-- The wiring of `singlePoller`. -/
def singlePollerWiring (producerBarrier : Barrier) : Wiring where
  consumers := [⟨.poller, producerBarrier⟩]
  consumerHandles := []
  consumerBarrier := .uniConsumer 0

-- ---------------------------------------------------------------------------
-- One producer
-- ---------------------------------------------------------------------------

/-- A schedule that races, on 4 slots, races with fewer orderings as well. -/
theorem WeakUniRun.race {w : Wiring} {as : List (WeakAct (UniAct Nat))} (hOrderings : o.Below o')
    (hOk : ∀ a ∈ as, WeakAct.ok UniAct.InRange a)
    (hExec : (exec (WeakUniSystem.step o' ring4 w) (WeakUniSystem.init ring4 w fun _ => 0) as).any
      (fun x => racy ring4 x.1.machine.log) = true) :
    ∃ tr s, WeakUniRun o ring4 w (fun _ => 0) tr s ∧ ¬ s.RaceFree ring4 := by
  obtain ⟨tr, s', hRun, hRacy⟩ := Run.of_schedule hOk hExec
  obtain ⟨s, hRun', hBelow⟩ := WeakUniRun.weaken hOrderings hRun
  exact ⟨tr, s, hRun', fun hFree => WeakSystem.not_raceFree hRacy (hBelow.raceFree hFree)⟩

/-- Sequence `0` is published, read in a poll, and then by the handler. -/
def uniReads : List (WeakAct (UniAct Nat)) :=
  finding [6, 9] ([.producer (.call (.publish (· + 1)))] ++ uniTicks 3 ++ pollTicks 0 2 ++
    [.consumer 0 .next, .consumer 0 .dropGuard, .consumer 1 .tick, .consumer 1 .tick])

/-- All slots are published; the first is read, and written to once more. -/
def uniWraps : List (WeakAct (UniAct Nat)) :=
  finding [10, 15] ([.producer (.call (.batchPublish 4 fun k e => e + k))] ++ uniTicks 7 ++
    pollTicks 0 2 ++ [.consumer 0 .next, .consumer 0 .dropGuard,
      .producer (.call (.publish (· + 1)))] ++ uniTicks 4)

/-- **The orderings of a single-producer disruptor.** There are no data races on
the slots, in any run on release/acquire memory of any wiring, exactly when
`Cursor::store` releases and the three acquire fences are there: of managed
consumers, of pollers and of the producer. -/
theorem uni_raceFree_iff (o : Orderings) :
    (∀ (E : Type) (R : RingSize) (chain : BuildChain) (w : Wiring) (factory : Nat → E)
      (tr : List (Event E)) (s : WeakUniSystem E),
      chain.build buildUniProducerUnchecked = some w → WeakUniRun o R w factory tr s →
        s.RaceFree R) ↔
      o.cursorStore = true ∧ o.waitFence = true ∧ o.pollFence = true ∧ o.uniFence = true := by
  constructor
  · intro hFree
    have hNone : ∀ (chain : BuildChain) (w : Wiring) as,
        chain.build buildUniProducerUnchecked = some w →
        (∀ a ∈ as, WeakAct.ok UniAct.InRange a) → ∀ o', o.Below o' →
        ¬ (exec (WeakUniSystem.step o' ring4 w) (WeakUniSystem.init ring4 w fun _ => 0) as).any
          (fun x => racy ring4 x.1.machine.log) = true := by
      intro chain w as hBuild hOk o' hOrderings hExec
      obtain ⟨tr, s, hRun, hRace⟩ := WeakUniRun.race hOrderings hOk hExec
      exact hRace (hFree Nat ring4 chain w _ tr s hBuild hRun)
    refine ⟨?_, ?_, ?_, ?_⟩ <;> by_contra hMissing
    · refine hNone pollerThenHandler _ uniReads rfl (by decide)
        { Orderings.source with cursorStore := false } ?_ (by decide +kernel)
      constructor <;> simp [Orderings.source, hMissing]
    · refine hNone pollerThenHandler _ uniReads rfl (by decide)
        { Orderings.source with waitFence := false } ?_ (by decide +kernel)
      constructor <;> simp [Orderings.source, hMissing]
    · refine hNone pollerThenHandler _ uniReads rfl (by decide)
        { Orderings.source with pollFence := false } ?_ (by decide +kernel)
      constructor <;> simp [Orderings.source, hMissing]
    · refine hNone singlePoller _ uniWraps rfl (by decide)
        { Orderings.source with uniFence := false } ?_ (by decide +kernel)
      constructor <;> simp [Orderings.source, hMissing]
  · rintro ⟨hStore, hWait, hPoll, hUni⟩ E R chain w factory tr s hBuild hRun
    obtain ⟨shown, hInv⟩ := hRun.inv (BuildChain.wired_uni hBuild) hStore hWait hPoll hUni
    exact hInv.messages.ordered

-- ---------------------------------------------------------------------------
-- Many producers
-- ---------------------------------------------------------------------------

/-- A schedule that races, on 64 slots, races with fewer orderings as well. -/
theorem WeakMultiRun.race {w : Wiring} {as : List (WeakAct (MultiAct Nat))}
    (hOrderings : o.Below o') (hOk : ∀ a ∈ as, WeakAct.ok MultiAct.InRange a)
    (hExec : (exec (WeakMultiSystem.step o' ring64.toRingSize w)
      (WeakMultiSystem.init ring64.toRingSize w fun _ => 0) as).any
      (fun x => racy ring64.toRingSize x.1.machine.log) = true) :
    ∃ tr s, WeakMultiRun o ring64 w (fun _ => 0) tr s ∧ ¬ s.RaceFree ring64.toRingSize := by
  obtain ⟨tr, s', hRun, hRacy⟩ := Run.of_schedule hOk hExec
  obtain ⟨s, hRun', hBelow⟩ := WeakMultiRun.weaken hOrderings hRun
  exact ⟨tr, s, hRun', fun hFree => WeakSystem.not_raceFree hRacy (hBelow.raceFree hFree)⟩

/-- Sequence `0` is published, read in a poll, and then by the handler. -/
def multiReads : List (WeakAct (MultiAct Nat)) :=
  finding [8, 13] ([call 0 (.publish (· + 1))] ++ ticks 0 5 ++ pollTicks 0 4 ++
    [.consumer 0 .next, .consumer 0 .dropGuard, .consumer 1 .tick, .consumer 1 .tick])

/-- Sequence `0` is published as a batch, and read in a poll. -/
def multiBatch : List (WeakAct (MultiAct Nat)) :=
  finding [10] ([call 0 (.batchPublish 1 fun k e => e + k)] ++ ticks 0 7 ++ pollTicks 0 4 ++
    [.consumer 0 .next])

/-- All slots are published; the first is read, and written to once more. -/
def multiWraps : List (WeakAct (MultiAct Nat)) :=
  finding [136, 200, 205, 207, 209] ([call 0 (.batchPublish 64 fun k e => e + k)] ++
    ticks 0 133 ++ pollTicks 0 67 ++ [.consumer 0 .next, .consumer 0 .dropGuard,
      call 0 (.publish (· + 1))] ++ ticks 0 6)

/-- **The orderings of a multi-producer disruptor.** There are no data races on
the slots, in any run on release/acquire memory of any wiring and any handles,
exactly when `Cursor::store` and `MultiProducerBarrier::publish` release, and
the fences are there: acquire of managed consumers, of pollers and of handles,
release before the flags of a batch. How `compare_exchange` is ordered is of no
importance. -/
theorem multi_raceFree_iff (o : Orderings) :
    (∀ (E : Type) (R : MultiRingSize) (chain : BuildChain) (w : Wiring) (factory : Nat → E)
      (tr : List (Event E)) (s : WeakMultiSystem E),
      chain.build buildMultiProducerUnchecked = some w → WeakMultiRun o R w factory tr s →
        s.RaceFree R.toRingSize) ↔
      o.cursorStore = true ∧ o.waitFence = true ∧ o.pollFence = true ∧ o.multiFence = true ∧
        o.batchFence = true ∧ o.publish = true := by
  constructor
  · intro hFree
    have hNone : ∀ (chain : BuildChain) (w : Wiring) as,
        chain.build buildMultiProducerUnchecked = some w →
        (∀ a ∈ as, WeakAct.ok MultiAct.InRange a) → ∀ o', o.Below o' →
        ¬ (exec (WeakMultiSystem.step o' ring64.toRingSize w)
          (WeakMultiSystem.init ring64.toRingSize w fun _ => 0) as).any
          (fun x => racy ring64.toRingSize x.1.machine.log) = true := by
      intro chain w as hBuild hOk o' hOrderings hExec
      obtain ⟨tr, s, hRun, hRace⟩ := WeakMultiRun.race hOrderings hOk hExec
      exact hRace (hFree Nat ring64 chain w _ tr s hBuild hRun)
    refine ⟨?_, ?_, ?_, ?_, ?_, ?_⟩ <;> by_contra hMissing
    · refine hNone pollerThenHandler _ multiReads rfl (by decide)
        { Orderings.source with cursorStore := false } ?_ (by decide +kernel)
      constructor <;> simp [Orderings.source, hMissing]
    · refine hNone pollerThenHandler _ multiReads rfl (by decide)
        { Orderings.source with waitFence := false } ?_ (by decide +kernel)
      constructor <;> simp [Orderings.source, hMissing]
    · refine hNone pollerThenHandler _ multiReads rfl (by decide)
        { Orderings.source with pollFence := false } ?_ (by decide +kernel)
      constructor <;> simp [Orderings.source, hMissing]
    · refine hNone singlePoller _ multiWraps rfl (by decide +kernel)
        { Orderings.source with multiFence := false } ?_ (by decide +kernel)
      constructor <;> simp [Orderings.source, hMissing]
    · refine hNone pollerThenHandler _ multiBatch rfl (by decide)
        { Orderings.source with batchFence := false } ?_ (by decide +kernel)
      constructor <;> simp [Orderings.source, hMissing]
    · refine hNone pollerThenHandler _ multiReads rfl (by decide)
        { Orderings.source with publish := false } ?_ (by decide +kernel)
      constructor <;> simp [Orderings.source, hMissing]
  · rintro ⟨hStore, hWait, hPoll, hMulti, hBatch, hPublish⟩ E R chain w factory tr s hBuild hRun
    obtain ⟨shown, hInv⟩ := hRun.inv (BuildChain.wired_multi hBuild) hStore hWait hPoll hMulti
      hBatch hPublish
    exact hInv.messages.ordered

end Calvera
