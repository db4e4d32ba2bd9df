import Calvera.Refinement.MPMC
import Calvera.Results.SlotExclusion

/-!
# Results — the code refines `MPMC.tla`

The model checker verifies `NoDataRaces` of `MPMC` for a few threads and a small
ring. `MPMC.spec_noDataRaces` says so for all constants, and the code refines
`MPMC`, so the code has no data races either, for all numbers of threads and all
ring sizes.

* `mpmc_refined` — every run of the code is a behaviour of `MPMC`, step by step.
-/

namespace Calvera

open Calvera.Lib Calvera.Protocol Calvera.Verification

variable {E : Type}

/-- **The code refines `MPMC.tla`.** Every run with single-event calls and
managed consumers, be they in one stage or in several, maps step by step to a
behaviour of `Init` and `Next` with at least as many published events and with
writers for all handles: a handle is one writer as long as its closures return,
and another one after each that unwinds. So there are no data races in it. -/
theorem mpmc_refined (R : MultiRingSize) (chain : BuildChain) (w : Wiring)
    (hBuild : chain.build buildMultiProducerUnchecked = some w)
    (hManaged : ∀ spec ∈ w.consumers, spec.kind ≠ .poller) (factory : Nat → E)
    (ts : List (Transition (MultiSystem E) (Act (MultiAct E)) (Event E))) (s : MultiSystem E)
    (hPath : Path (MultiSystem.step R.toRingSize w) MultiAct.Single
      (MultiSystem.init R.toRingSize w factory) ts s)
    (writers : Set Writer) (maxPublished : Nat)
    (hWriters : ∀ h < s.producer.nextHandle,
      ∀ k ≤ unwinds h (ts.flatMap Transition.events), (h, k) ∈ writers)
    (hMax : s.memory.cursor < maxPublished) :
    ∃ b, (MPMC.spec (mpmcConstants R.toRingSize w writers maxPublished)).Behaviour b ∧
      Simulates (fun tr s x => s.Maps R.toRingSize w tr x)
        (MapsStep (mpmcConstants R.toRingSize w writers maxPublished)) ts s b ∧
      (∀ i, (b i).ringbuffer.NoDataRaces R.size) ∧
      s.NoDataRaces R.toRingSize w := by
  set K := mpmcConstants R.toRingSize w writers maxPublished
  have hWired := BuildChain.wired_multi hBuild
  have hInv : ∀ {tr s}, Run (MultiSystem.step R.toRingSize w) MultiAct.Single
      (MultiSystem.init R.toRingSize w factory) tr s → MultiInv R.toRingSize chain.topology tr s :=
    fun hRun => MultiRun.inv hWired (hRun.mono fun _ => MultiAct.Single.inRange)
  have hExists : ∃ b, b 0 = MPMC.initial ∧
      Simulates (fun tr s x => s.Simulated R.toRingSize w tr x) (MapsStep K) ts s b :=
    hPath.simulate (.init hManaged) (fun hRun _ hs hWithin => hWithin.before (hInv hRun) hs)
      (fun hRun hAct hs hWithin hS => hS.step hWired (hInv hRun) hAct hs hWithin) ⟨hMax, hWriters⟩
  obtain ⟨b, hStart, hSim⟩ := hExists
  have hBehaviour : (MPMC.spec K).Behaviour b := by
    refine hSim.behaviour hStart fun tr s act x x' hStep => ?_
    unfold MapsStep at hStep
    split at hStep
    · exact .inl hStep.next
    · exact .inr hStep
  have hInvariant := hBehaviour.always (P := MPMC.Inv K) (fun _ hInit => hInit ▸ .initial)
    (fun _ _ => MPMC.Inv.next) ts.length
  exact ⟨b, hBehaviour, hSim.mono fun _ _ _ => MultiSystem.Simulated.maps,
    MPMC.spec_noDataRaces hBehaviour, hSim.last.maps.noDataRaces rfl hInvariant⟩

/-- Two managed consumers in one stage. -/
def twoHandlers : BuildChain := .mc (.second .handler (.first .handler .new))

/-- The wiring of `twoHandlers`. -/
def twoHandlersWiring : Wiring where
  consumers := [⟨.handler, .multiProducer⟩, ⟨.handler, .multiProducer⟩]
  consumerHandles := [0, 1]
  consumerBarrier := .multiConsumer [0, 1]

/-- Handle `0` publishes sequence `0`, consumer `0` is in its handler for it, and
the clone of the handle has claimed sequence `1`. -/
def readAndWrite : List (Act (MultiAct Nat)) :=
  [.producer (.clone 0), call 0 (.publish (· + 1))] ++ ticks 0 5 ++
    List.replicate 4 (.consumer 0 .tick) ++ [call 1 (.tryPublish (· + 2))] ++ ticks 1 7

theorem mpmc_refined_read_and_write : ∃ ts s,
    Path (MultiSystem.step ring64.toRingSize twoHandlersWiring) MultiAct.Single
      (MultiSystem.init ring64.toRingSize twoHandlersWiring fun _ => 0) ts s ∧
    (s.consumers 0).toPc = .advance ∧ (s.producer.handles 1).pc.toPc = .advance ∧
    ∃ b, (MPMC.spec (mpmcConstants ring64.toRingSize twoHandlersWiring
        {(0, 0), (1, 0)} 2)).Behaviour b ∧
      (b ts.length).nextSequence = 2 ∧ (b ts.length).pc (.inr 0) = .advance ∧
      (b ts.length).pc (.inl (1, 0)) = .advance := by
  have hRecord : (record (MultiSystem.step ring64.toRingSize twoHandlersWiring)
      (MultiSystem.init ring64.toRingSize twoHandlersWiring fun _ => 0) readAndWrite).any (fun x =>
        x.2.producer.nextHandle = 2 ∧ unwinds 0 (x.1.flatMap Transition.events) = 0 ∧
          unwinds 1 (x.1.flatMap Transition.events) = 0 ∧ x.2.memory.cursor = 1 ∧
          (x.2.consumers 0).toPc = .advance ∧ (x.2.producer.handles 1).pc.toPc = .advance) =
            true := by
    decide
  obtain ⟨ts, s, hPath, hState⟩ := Path.of_schedule
    (by decide : ∀ a ∈ readAndWrite, MultiAct.Single a) hRecord
  obtain ⟨hNames, hNone, hNone', hCursor, hReader, hWriter⟩ := of_decide_eq_true hState
  have hWriters : ∀ h < s.producer.nextHandle,
      ∀ k ≤ unwinds h (ts.flatMap Transition.events), (h, k) ∈ ({(0, 0), (1, 0)} : Set Writer) := by
    intro h hName k hk
    have hh : h < 2 := hName.trans_eq hNames
    obtain rfl | rfl : h = 0 ∨ h = 1 := by omega
    · obtain rfl : k = 0 := Nat.le_zero.mp (hk.trans_eq hNone)
      simp
    · obtain rfl : k = 0 := Nat.le_zero.mp (hk.trans_eq hNone')
      simp
  obtain ⟨b, hBehaviour, hSim, -⟩ := mpmc_refined ring64 twoHandlers twoHandlersWiring rfl
    (by decide) (fun _ => 0) ts s hPath {(0, 0), (1, 0)} 2 hWriters (by rw [hCursor]; decide)
  have hMaps := hSim.last
  refine ⟨ts, s, hPath, hReader, hWriter, b, hBehaviour, ?_, ?_, ?_⟩
  · rw [hMaps.nextSequence, hCursor]
    rfl
  · rw [hMaps.readerPc 0 (by decide), hReader]
  · have hPc := hMaps.writerPc 1
    rwa [hNone', hWriter] at hPc

end Calvera
