import Calvera.Refinement.Filled
import Calvera.Refinement.Shutdown
import Calvera.Results.SlotExclusion

/-!
# Results — closures that unwind

A `UniProducer` advances its sequence after the closure, so a closure that
unwinds leaves nothing behind. A `MultiProducer` has moved the shared cursor
before it runs the closure, and nothing moves it back or flips the bits: the
sequences of the call stay claimed and unpublished, and consumers never get
past the first of them, while later calls and the last `drop` count them in.

* `hole_free_iff`       — one producer leaves no hole; many producers leave none
  exactly when no closure unwinds in a call that claimed a sequence.
* `abandoned_blocks`    — no consumer is ever granted an abandoned sequence.
* `unwound_leaves_hole` — a closure that unwinds leaves a hole.
-/

namespace Calvera

open Calvera.Lib Calvera.Protocol

variable {E P : Type} {R : RingSize} {T : Topology Nat} {w : Wiring} {tr : List (Event E)}

/-- The producer is inside a publish call. -/
def UniPc.insideCall : UniPc E → Bool
  | .idle | .shutdown | .join _ | .dropped | .overflowed => false
  | _ => true

/-- The handle is inside a publish call. -/
def MultiPc.insideCall : MultiPc E → Bool
  | .absent | .idle | .shutdownCurrent | .shutdownStore _ | .join _ | .dropped | .overflowed => false
  | _ => true

theorem UniPc.holds_of_outside {pc : UniPc E} (h : pc.insideCall = false) : pc.holds = false := by
  cases pc <;> simp_all [insideCall, holds]

theorem MultiPc.holds_of_outside {pc : MultiPc E} (h : pc.insideCall = false) : pc.holds = false := by
  cases pc <;> simp_all [insideCall, holds]

/-- There is no hole below the highest claim. -/
structure HoleFree (R : RingSize) (w : Wiring) (producerBarrier : Barrier) (tr : List (Event E))
    (s : System P E) : Prop where
  /-- Every sequence up to the highest claimed one is published. -/
  filled : Filled tr s.memory.cursor
  /-- Asked from any consumer's next sequence, the producer barrier answers the
  highest claim. -/
  reached : ∀ c < w.consumers.length, ∃ fuel,
    (producerBarrier.getAfter (s.memory.consumerCursors c + 1)).run R s.memory fuel =
      some s.memory.cursor
  /-- So consumers can reach the sequence stored at shutdown. -/
  stored : s.memory.shutdownAtSequence ≠ NONE → s.memory.shutdownAtSequence = s.memory.cursor + 1

/-- Without a hole, the producer barrier answers the highest claim. -/
theorem System.Consistent.answers_cursor {producerBarrier : Barrier} {s : System P E}
    (h : s.Consistent R T producerBarrier s.memory.cursor (publishedBy tr))
    (hFilled : Filled tr s.memory.cursor) {c : Nat} (hMem : c ∈ T.members) :
    ∃ fuel, (producerBarrier.getAfter (s.memory.consumerCursors c + 1)).run R s.memory fuel =
      some s.memory.cursor := by
  have hLap : Lap R.size (publishedBy tr) (s.memory.consumerCursors c + 1 - 1) := by
    rw [Int.add_sub_cancel]
    exact h.lap hMem
  have hCovers : Covers T producerBarrier 0 producerBarrier := .producer
  obtain ⟨fuel, v, hRun, hPassed, hMax⟩ := getAfter_run hCovers h.represents fun _ => hLap
  have hLe : v ≤ s.memory.cursor := h.inv.published_le v (hPassed v (le_refl v))
  have hGe : s.memory.cursor ≤ v := hMax _ h.claimed_le fun t ht => hFilled.published ht
  exact ⟨fuel, by rw [hRun, le_antisymm hLe hGe]⟩

/-- **No consumer is ever granted an abandoned sequence**, nor anything after it. -/
theorem MultiInv.abandoned_blocks {s : MultiSystem E} (hInv : MultiInv R T tr s) {t : Int}
    (ht : Abandoned tr t) {c : Nat} (hMem : c ∈ T.members) :
    (s.consumers c).granted (s.memory.consumerCursors c) < t := by
  have hBounds := hInv.ledger.lost_bounds t ht
  have hFresh : t ∉ publishedBy tr := by
    rw [mem_publishedBy, not_or]
    exact ⟨by omega, (hInv.ledger.lost_fresh t ht).1⟩
  exact hInv.consistent.inv.granted_lt hMem hFresh

/-- **Holes come from unwinding `MultiProducer` closures only.** In every
reachable state without a publish call in progress, closures having returned or
unwound, and handles having been used again or dropped: one producer leaves no
hole; many producers leave none exactly when no closure unwound in a call that
had claimed a sequence. -/
theorem hole_free_iff (R : RingSize) (R' : MultiRingSize) (chain : BuildChain) (w w' : Wiring)
    (hBuild : chain.build buildUniProducerUnchecked = some w)
    (hBuild' : chain.build buildMultiProducerUnchecked = some w') (factory : Nat → E) :
    (∀ (tr : List (Event E)) (s : UniSystem E), UniRun R w factory tr s →
      s.producer.pc.insideCall = false → HoleFree R w .uniProducer tr s) ∧
    (∀ (tr : List (Event E)) (s : MultiSystem E), MultiRun R' w' factory tr s →
      (∀ h, (s.producer.handles h).pc.insideCall = false) →
      (HoleFree R'.toRingSize w' .multiProducer tr s ↔ ∀ t, ¬ Abandoned tr t)) := by
  constructor
  · intro tr s hRun hOutside
    have hWired := BuildChain.wired_uni hBuild
    have hInv := UniRun.inv hWired hRun
    have hConsistent := hInv.consistent
    rw [hInv.claimed_eq (UniPc.holds_of_outside hOutside)] at hConsistent
    exact ⟨hInv.filled, fun c hc => hConsistent.answers_cursor hInv.filled ((hWired.mem_iff c).mpr hc),
      fun hStored => (UniRun.closed hWired hRun hStored).2⟩
  · intro tr s hRun hOutside
    have hWired := BuildChain.wired_multi hBuild'
    have hInv := MultiRun.inv hWired hRun
    rw [← hInv.filled_iff fun h => MultiPc.holds_of_outside (hOutside h)]
    refine ⟨HoleFree.filled, fun hFilled => ⟨hFilled, ?_, ?_⟩⟩
    · intro c hc
      exact hInv.consistent.answers_cursor hFilled ((hWired.mem_iff c).mpr hc)
    · intro hStored
      exact (MultiRun.closed hWired hRun hStored).2

/-- A closure of the single producer unwinds, and the next call takes its sequence. -/
def uniUnwound : List (Act (UniAct Nat)) :=
  [.producer (.call (.publish (· + 1)))] ++ uniTicks 1 ++ [.producer (.unwind 7)] ++
    [.producer (.call (.publish (· + 2)))] ++ uniTicks 3

theorem hole_free_iff_unwound : ∃ tr s,
    UniRun ring4 (pollerThenHandlerWiring .uniProducer) (fun _ => 0) tr s ∧ Abandoned tr 0 ∧
    HoleFree ring4 (pollerThenHandlerWiring .uniProducer) .uniProducer tr s := by
  have hExec : (execUni uniUnwound).any (fun x => x.1.producer.pc.insideCall = false ∧
      x.2.any (fun | .unwound 0 0 0 => true | _ => false)) = true := by
    decide
  obtain ⟨tr, s, hRun, hState⟩ := Run.of_schedule
    (by decide : ∀ a ∈ uniUnwound, UniAct.InRange a) hExec
  obtain ⟨hOutside, hUnwound⟩ := of_decide_eq_true hState
  have hAbandoned : Abandoned tr 0 := by
    obtain ⟨e, hMem, he⟩ := List.any_eq_true.mp hUnwound
    split at he
    · exact ⟨0, 0, 0, hMem, le_refl _, le_refl _⟩
    · cases he
  obtain ⟨hUni, -⟩ := hole_free_iff ring4 ring64 pollerThenHandler
    (pollerThenHandlerWiring .uniProducer) (pollerThenHandlerWiring .multiProducer) rfl rfl
    fun _ => (0 : Nat)
  exact ⟨tr, s, hRun, hAbandoned, hUni tr s hRun hOutside⟩

/-- The closure of the first call unwinds, a second call publishes its event,
and the handle is dropped. -/
def multiUnwound : List (Act (MultiAct Nat)) :=
  [call 0 (.publish (· + 1))] ++ ticks 0 3 ++ [.producer (.handle 0 (.unwind 7))] ++
    [call 0 (.tryPublish (· + 2))] ++ ticks 0 5 ++ [.producer (.drop 0)] ++ ticks 0 2

/-- **A closure that unwinds leaves a hole**: sequence `0` is claimed and never
published, so the barrier answers `-1` although `1` is published, and `2` is
stored as the sequence to shut down at. -/
theorem unwound_leaves_hole : ∃ tr s,
    MultiRun ring64 (pollerThenHandlerWiring .multiProducer) (fun _ => 0) tr s ∧
    (∀ h, (s.producer.handles h).pc.insideCall = false) ∧
    s.memory.cursor = 1 ∧ flips tr = [1] ∧ s.memory.shutdownAtSequence = 2 ∧
    (Barrier.multiProducer.getAfter 0).run ring64.toRingSize s.memory 3 = some (-1) ∧
    ¬ HoleFree ring64.toRingSize (pollerThenHandlerWiring .multiProducer) .multiProducer tr s := by
  have hExec : (execMulti multiUnwound).any (fun x =>
      x.1.producer.nextHandle = 1 ∧ (x.1.producer.handles 0).pc.insideCall = false ∧
        x.1.memory.cursor = 1 ∧ flips x.2 = [1] ∧ x.1.memory.shutdownAtSequence = 2 ∧
        (Barrier.multiProducer.getAfter 0).run ring64.toRingSize x.1.memory 3 = some (-1)) =
          true := by
    decide
  obtain ⟨tr, s, hRun, hState⟩ := Run.of_schedule
    (by decide : ∀ a ∈ multiUnwound, MultiAct.InRange a) hExec
  obtain ⟨hNames, hOutside, hCursor, hFlips, hStored, hAnswer⟩ := of_decide_eq_true hState
  have hWired : Wired pollerThenHandler.topology .multiProducer
      (pollerThenHandlerWiring .multiProducer) := BuildChain.wired_multi rfl
  have hInv := MultiRun.inv hWired hRun
  refine ⟨tr, s, hRun, ?_, hCursor, hFlips, hStored, hAnswer, ?_⟩
  · intro h
    -- there is one handle only
    rcases Nat.eq_zero_or_pos h with rfl | hPos
    · exact hOutside
    · rw [hInv.absent h ((le_of_eq hNames).trans hPos)]
      rfl
  · intro hFree
    have hZero := (hFree.filled 0).mpr ⟨le_refl _, by rw [hCursor]; decide⟩
    rw [hFlips] at hZero
    simp at hZero

end Calvera
