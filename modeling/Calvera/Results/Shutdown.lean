import Calvera.Refinement.Disruptor
import Calvera.Results.SlotExclusion

/-!
# Results — shutdown

The last drop tells the consumers where the stream ends. It says so once, with
the number of events published; consumers stop there and nowhere before,
whatever their stage, and nobody waits beyond it.

* `shutdown_sound` — all of this, for both disruptors.
-/

namespace Calvera

open Calvera.Lib Calvera.Protocol

variable {E P A : Type}

/-- The producer has not been dropped. -/
def UniSystem.Live (s : UniSystem E) : Prop := s.producer.pc.live = true

/-- Some handle exists that has not been dropped. -/
def MultiSystem.Live (s : MultiSystem E) : Prop := ∃ h, (s.producer.handles h).pc.live = true

/-- What shutdown does, seen in one reachable state. -/
structure ShutdownSound (R : RingSize) (w : Wiring)
    (step : System P E → Act A → Option (System P E × List (Event E))) (ok : Act A → Prop)
    (live : System P E → Prop) (tr : List (Event E)) (s : System P E) : Prop where
  /-- Only a step without live handles changes `shutdown_at_sequence`, once, to
  the number of events published. -/
  once : ∀ act s' es, step s act = some (s', es) →
    s'.memory.shutdownAtSequence ≠ s.memory.shutdownAtSequence →
      s.memory.shutdownAtSequence = NONE ∧ ¬ live s ∧
        s'.memory.shutdownAtSequence = (flips tr).length ∧
        Filled tr (s'.memory.shutdownAtSequence - 1)
  /-- Afterwards it stays the number of events published. -/
  stored : s.memory.shutdownAtSequence ≠ NONE →
    ¬ live s ∧ s.memory.shutdownAtSequence = (flips tr).length ∧
      Filled tr (s.memory.shutdownAtSequence - 1)
  /-- A consumer that was told to stop was given everything. -/
  ended : ∀ c spec, w.consumers[c]? = some spec → Ended c tr →
    s.memory.shutdownAtSequence ≠ NONE ∧
      s.memory.consumerCursors c = s.memory.shutdownAtSequence - 1 ∧
      ((spec.kind = .poller → Exhausts c tr) →
        (observed c tr).map Prod.fst = seqRange 0 (s.memory.shutdownAtSequence - 1))
  /-- A managed consumer at the end is told to stop by its next wait: the wait
  is never stuck, and over after `k` steps of the consumer. -/
  wait : ∀ c spec, w.consumers[c]? = some spec → spec.kind ≠ .poller →
    s.memory.shutdownAtSequence ≠ NONE →
    s.memory.consumerCursors c = s.memory.shutdownAtSequence - 1 →
      .waitEnded c ∈ tr ∨
        (step s (.consumer c .tick)).isSome = true ∧
          ∃ k, ∀ ts s', Path step ok s ts s' → k ≤ ts.countP (fun t => t.act.isOf c) →
            .waitEnded c ∈ ts.flatMap Transition.events
  /-- A poller at the end is told to stop by its next poll. -/
  poll : ∀ c spec last call, w.consumers[c]? = some spec → s.consumers c = .idle last →
    (call = .poll ∨ ∃ limit, call = .pollTake limit) →
    s.memory.shutdownAtSequence ≠ NONE →
    s.memory.consumerCursors c = s.memory.shutdownAtSequence - 1 →
      ∃ s₁, step s (.consumer c call) = some (s₁, []) ∧
        ∀ ts s', Path step ok s₁ ts s' → 1 ≤ ts.countP (fun t => t.act.isOf c) →
          .pollFailed c .shutdown ∈ ts.flatMap Transition.events

/-- The consumers' side of it. -/
theorem Disruptor.shutdownSound {R : RingSize} {T : Topology Nat} {w : Wiring}
    {producerBarrier : Barrier}
    {step : System P E → Act A → Option (System P E × List (Event E))} {ok : Act A → Prop}
    {s₀ s : System P E} {live : System P E → Prop} {tr : List (Event E)}
    (hD : Disruptor R T w producerBarrier step ok s₀) (hRun : Run step ok s₀ tr s)
    (hOnce : ∀ act s' es, step s act = some (s', es) →
      s'.memory.shutdownAtSequence ≠ s.memory.shutdownAtSequence →
        s.memory.shutdownAtSequence = NONE ∧ ¬ live s ∧
          s'.memory.shutdownAtSequence = s.memory.cursor + 1)
    (hStored : s.memory.shutdownAtSequence ≠ NONE →
      ¬ live s ∧ s.memory.shutdownAtSequence = s.memory.cursor + 1)
    (hFilled : ¬ live s →
      Filled tr s.memory.cursor ∧ s.memory.cursor + 1 = (flips tr).length) :
    ShutdownSound R w step ok live tr s where
  once act s' es hs hne := by
    obtain ⟨hNone, hDead, hNew⟩ := hOnce act s' es hs hne
    obtain ⟨hAll, hLength⟩ := hFilled hDead
    rw [hNew, Int.add_sub_cancel]
    exact ⟨hNone, hDead, hLength, hAll⟩
  stored hne := by
    obtain ⟨hDead, hEq⟩ := hStored hne
    obtain ⟨hAll, hLength⟩ := hFilled hDead
    rw [hEq, Int.add_sub_cancel]
    exact ⟨hDead, hLength, hAll⟩
  ended c spec hSpec hEnded := by
    have hMem := hD.wired.mem hSpec
    have hDrained := hD.ended hRun hMem hEnded
    have hEnd := hDrained.2
    refine ⟨hDrained.1, by omega, fun hPoller => ?_⟩
    have hExhausts : Exhausts c tr :=
      if hKind : spec.kind = .poller then hPoller hKind else (hD.managed hRun hSpec hKind).2
    rw [hD.observed hRun hMem hExhausts, hD.next_of_drained hRun hMem hDrained, hEnd]
  wait c spec hSpec hKind hne hEnd := by
    have hMem := hD.wired.mem hSpec
    have hDrained : s.Drained c := ⟨hne, by omega⟩
    rcases hD.waits_of_drained hRun hSpec hKind hDrained with hWaits | hExited
    · refine .inr ⟨?_, (s.consumers c).waitRank (s.memory.consumerCursors c) + 1,
        fun ts s' hPath hEnough => ?_⟩
      · rw [hD.step_consumer]
        refine Disruptor.tick_isSome hSpec (hD.managed hRun hSpec hKind).1 fun hExited => ?_
        rw [hExited] at hWaits
        cases hWaits
      · exact hD.wait hRun hMem hDrained hWaits hPath (Nat.lt_of_succ_le hEnough)
    · exact .inl (hD.exited hRun hSpec hExited)
  poll c spec last call hSpec hPc hCall hne hEnd := by
    have hMem := hD.wired.mem hSpec
    obtain ⟨limit, hStart⟩ := Disruptor.poll_start (R := R) hSpec hPc hCall
    rw [← hD.step_consumer] at hStart
    refine ⟨_, hStart, fun ts s' hPath hEnough => ?_⟩
    have hRun' := hRun.snoc (hD.ok_consumer c call) hStart
    have hNext : s.memory.consumerCursors c + 1 = s.memory.shutdownAtSequence := by omega
    exact hD.poll hRun' hMem ⟨hne, hNext⟩ ⟨limit, Function.update_self ..⟩ hPath hEnough

/-- **Shutdown loses nothing.** In every reachable state of either disruptor,
for many producers in a run whose closures return: `shutdown_at_sequence`
changes once, from `-1`, only when no handle is live, and to the number of
events published; a consumer that was told to stop has its cursor at the last
published sequence and was given all of them; and a consumer whose cursor is
there is told to stop by its next wait or poll. -/
theorem shutdown_sound (R : RingSize) (R' : MultiRingSize) (chain : BuildChain) (w w' : Wiring)
    (hBuild : chain.build buildUniProducerUnchecked = some w)
    (hBuild' : chain.build buildMultiProducerUnchecked = some w') (factory : Nat → E) :
    (∀ (tr : List (Event E)) (s : UniSystem E), UniRun R w factory tr s →
      ShutdownSound R w (UniSystem.step R w) UniAct.InRange UniSystem.Live tr s) ∧
    (∀ (tr : List (Event E)) (s : MultiSystem E), MultiRun R' w' factory tr s → NoUnwind tr →
      ShutdownSound R'.toRingSize w' (MultiSystem.step R'.toRingSize w') MultiAct.InRange
        MultiSystem.Live tr s) := by
  constructor
  · intro tr s hRun
    have hWired := BuildChain.wired_uni hBuild
    have hInv := UniRun.inv hWired hRun
    refine (UniRun.disruptor hWired factory).shutdownSound hRun ?_ ?_ ?_
    · intro act s' es hs hne
      obtain ⟨hNone, hDead, hNew⟩ := UniRun.store hRun hs hne
      have := hInv.cursor
      exact ⟨hNone, by simp [UniSystem.Live, hDead], by omega⟩
    · intro hne
      obtain ⟨hPc, hEq⟩ := UniRun.closed hWired hRun hne
      exact ⟨by simp [UniSystem.Live, UniPc.live_of_stored hPc], hEq⟩
    · intro _
      exact ⟨hInv.filled, (hInv.filled.length_eq hInv.nodup hInv.cursor_ge).symm⟩
  · intro tr s hRun hReturn
    have hWired := BuildChain.wired_multi hBuild'
    have hInv := MultiRun.inv hWired hRun
    refine (MultiRun.disruptor hWired factory).shutdownSound hRun ?_ ?_ ?_
    · intro act s' es hs hne
      obtain ⟨hNone, hDead, hNew⟩ := MultiRun.store hWired hRun hs hne
      exact ⟨hNone, by simp [MultiSystem.Live, hDead], hNew⟩
    · intro hne
      obtain ⟨hDead, hEq⟩ := MultiRun.closed hWired hRun hne
      exact ⟨by simp [MultiSystem.Live, hDead], hEq⟩
    · intro hDead
      simp only [MultiSystem.Live, not_exists, Bool.not_eq_true] at hDead
      have hFilled := (hInv.filled_iff fun h => MultiPc.holds_of_not_live (hDead h)).mpr
        fun t => hReturn.abandoned
      exact ⟨hFilled, (hFilled.length_eq hInv.ledger.nodup hInv.cursor_ge).symm⟩

/-- Two handles publish one event each and are dropped. The poller reads both
and polls once more, the handler runs to its end. -/
def lastDrop : List (Act (MultiAct Nat)) :=
  [.producer (.clone 0), call 0 (.publish (· + 1))] ++ ticks 0 5 ++ [.producer (.drop 0)] ++
    [call 1 (.publish (· + 2))] ++ ticks 1 7 ++ [.producer (.drop 1)] ++ ticks 1 2 ++
    pollTicks 0 5 ++ [.consumer 0 .next, .consumer 0 .next, .consumer 0 .dropGuard] ++
    List.replicate 8 (.consumer 1 .tick) ++ pollTicks 0 1

theorem shutdown_sound_last_drop : ∃ tr s,
    MultiRun ring64 (pollerThenHandlerWiring .multiProducer) (fun _ => 0) tr s ∧
    s.memory.shutdownAtSequence = 2 ∧ Ended 0 tr ∧ Ended 1 tr ∧
    s.memory.consumerCursors 0 = 1 ∧ s.memory.consumerCursors 1 = 1 ∧
    (observed 1 tr).map Prod.fst = [0, 1] := by
  have hExec : (execMulti lastDrop).any (fun x =>
      x.1.memory.shutdownAtSequence = 2 ∧
        x.2.any (fun | .pollFailed 0 .shutdown => true | _ => false) ∧
        x.2.any (fun | .waitEnded 1 => true | _ => false) ∧
        x.2.all (fun | .unwound .. => false | _ => true)) = true := by
    decide
  obtain ⟨tr, s, hRun, hState⟩ := Run.of_schedule
    (by decide : ∀ a ∈ lastDrop, MultiAct.InRange a) hExec
  obtain ⟨hStored, hPolled, hWaited, hAll⟩ := of_decide_eq_true hState
  rw [List.all_eq_true] at hAll
  have hReturn : NoUnwind tr := fun _ _ _ hMem => by simpa using hAll _ hMem
  have hPoller : Ended 0 tr := by
    obtain ⟨e, hMem, he⟩ := List.any_eq_true.mp hPolled
    split at he
    · exact .inr hMem
    · cases he
  have hHandler : Ended 1 tr := by
    obtain ⟨e, hMem, he⟩ := List.any_eq_true.mp hWaited
    split at he
    · exact .inl hMem
    · cases he
  obtain ⟨-, hMulti⟩ := shutdown_sound ring4 ring64 pollerThenHandler
    (pollerThenHandlerWiring .uniProducer) (pollerThenHandlerWiring .multiProducer) rfl rfl
    fun _ => (0 : Nat)
  have hSound := hMulti tr s hRun hReturn
  obtain ⟨-, hFirst, -⟩ := hSound.ended 0 _ rfl hPoller
  obtain ⟨-, hSecond, hSeen⟩ := hSound.ended 1 _ rfl hHandler
  rw [hStored] at hFirst hSecond hSeen
  exact ⟨tr, s, hRun, hStored, hPoller, hHandler, hFirst, hSecond, hSeen fun h => by simp at h⟩

end Calvera
