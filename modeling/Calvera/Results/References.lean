import Calvera.Refinement.References
import Calvera.Results.SlotExclusion

/-!
# Results — references into a batch

The documentation of `MutBatchIter` says of the references to events: "you can't
hold onto them after the batch is published". The signature of the closure says
`&'a mut E` with the lifetime of the borrow of the handle, so nothing stops the
client from keeping them until the handle is used again, and the batch is
published when the closure returns.

* `held_unpublished` — while closures return without references, no reference
  leads to a sequence that was made available.
* `kept_published`   — one that is kept does, with either producer.
-/

namespace Calvera

open Calvera.Lib Calvera.Protocol

variable {E : Type}

/-- **What the client can write to is not available**, to any consumer, in every
run in which the closures of batches return without references. -/
theorem held_unpublished (R : RingSize) (R' : MultiRingSize) (chain : BuildChain) (w w' : Wiring)
    (hBuild : chain.build buildUniProducerUnchecked = some w)
    (hBuild' : chain.build buildMultiProducerUnchecked = some w') (factory : Nat → E) :
    (∀ ts c, UniClientPath R w factory ts c →
      (∀ t ∈ ts, t.source.Confined uniSignatures t.act) →
      ∀ h, ∀ s ∈ c.held h, c.system.memory.cursor < s ∧
        ∀ c' < w.consumers.length,
          (c.system.consumers c').granted (c.system.memory.consumerCursors c') < s) ∧
    (∀ ts c, MultiClientPath R' w' factory ts c →
      (∀ t ∈ ts, t.source.Confined multiSignatures t.act) →
      ∀ h, ∀ s ∈ c.held h, s ∉ flips (ts.flatMap Transition.events) ∧
        ∀ c' < w'.consumers.length,
          (c.system.consumers c').granted (c.system.memory.consumerCursors c') < s) := by
  have hNotYet : ∀ {tr : List (Event E)} {s : Int}, 0 ≤ s → s ∉ flips tr → s ∉ publishedBy tr := by
    intro tr s hs hFresh
    rw [mem_publishedBy, not_or]
    exact ⟨by omega, hFresh⟩
  constructor
  · intro ts c hPath hConfined h s hs
    have hWired := BuildChain.wired_uni hBuild
    have hHeld := UniClientPath.held hWired hPath hConfined
    obtain ⟨hCursor, hFresh⟩ := hHeld.hidden hs
    refine ⟨hCursor, fun c' hc' => ?_⟩
    have hPos : 0 ≤ s := by
      have := hHeld.inv.cursor
      have := hHeld.inv.sequence
      omega
    exact hHeld.inv.consistent.inv.granted_lt ((hWired.mem_iff c').mpr hc') (hNotYet hPos hFresh)
  · intro ts c hPath hConfined h s hs
    have hWired := BuildChain.wired_multi hBuild'
    have hHeld := MultiClientPath.held hWired hPath hConfined
    have hFresh := hHeld.hidden hs
    refine ⟨hFresh, fun c' hc' => ?_⟩
    exact hHeld.inv.consistent.inv.granted_lt ((hWired.mem_iff c').mpr hc')
      (hNotYet (hHeld.nonneg hs) hFresh)

/-- The step of a disruptor in which the client keeps the reference it is given. -/
def keeping {A : Type} (act : Act A) : ClientAct A Nat := .step act true

/-- Steps of a disruptor in which the client keeps no reference. -/
def keepingNone {A : Type} (acts : List (Act A)) : List (ClientAct A Nat) :=
  acts.map fun act => .step act false

/-- A batch of one event. -/
def batchOfOne : Op Nat := .tryBatchPublish 1 fun _ e => e + 1

/-- The reference of the first batch is dropped before its closure returns. The
closure of the second batch holds one. -/
def uniLent : List (ClientAct (UniAct Nat) Nat) :=
  keepingNone (.producer (.call batchOfOne) :: uniTicks 1) ++
    [keeping (.producer .tick), .write 0 0 (· + 5), .release 0 0] ++ keepingNone (uniTicks 2) ++
    keepingNone (.producer (.call batchOfOne) :: uniTicks 1) ++ [keeping (.producer .tick)]

theorem held_unpublished_lent : ∃ ts c,
    UniClientPath ring4 (pollerThenHandlerWiring .uniProducer) (fun _ => 0) ts c ∧
    c.held 0 = [1] ∧ c.system.memory.slots 0 = 6 ∧ c.system.memory.cursor < 1 := by
  have hRecord : (record (clientStep ring4 uniSignatures
      (UniSystem.step ring4 (pollerThenHandlerWiring .uniProducer)))
      (Client.init (UniSystem.init ring4 (pollerThenHandlerWiring .uniProducer) fun _ => 0))
      uniLent).any (fun x => x.2.held 0 = [1] ∧ x.2.system.memory.slots 0 = 6 ∧
        ∀ t ∈ x.1, t.source.Confined uniSignatures t.act) = true := by
    decide
  obtain ⟨ts, c, hPath, hState⟩ := Path.of_schedule
    (by decide : ∀ a ∈ uniLent, ClientAct.ok UniAct.InRange a) hRecord
  obtain ⟨hHeld, hSlot, hConfined⟩ := of_decide_eq_true hState
  obtain ⟨hUni, -⟩ := held_unpublished ring4 ring64 pollerThenHandler
    (pollerThenHandlerWiring .uniProducer) (pollerThenHandlerWiring .multiProducer) rfl rfl
    fun _ => (0 : Nat)
  have hMem : (1 : Int) ∈ c.held 0 := by
    rw [hHeld]
    exact List.mem_singleton_self _
  exact ⟨ts, c, hPath, hHeld, hSlot, (hUni ts c hPath hConfined 0 1 hMem).1⟩

/-- The closure of a batch keeps the reference to its event, which the poller
then has in a guard. -/
def uniKept : List (ClientAct (UniAct Nat) Nat) :=
  keepingNone (.producer (.call batchOfOne) :: uniTicks 1) ++ [keeping (.producer .tick)] ++
    keepingNone (uniTicks 2) ++ keepingNone (pollTicks 0 2) ++ [.write 0 0 fun _ => 7]

/-- The same with a handle of many. -/
def multiKept : List (ClientAct (MultiAct Nat) Nat) :=
  keepingNone (call 0 batchOfOne :: ticks 0 3) ++ [keeping (.producer (.handle 0 .tick))] ++
    keepingNone (ticks 0 3) ++ keepingNone (pollTicks 0 4) ++ [.write 0 0 fun _ => 7]

/-- **A reference that is kept leads to an event that is published**, and the
client writes through it while a guard of the poller is open on that event. -/
theorem kept_published :
    (∃ ts c, UniClientPath ring4 (pollerThenHandlerWiring .uniProducer) (fun _ => 0) ts c ∧
      c.held 0 = [0] ∧ c.system.memory.cursor = 0 ∧ c.system.memory.slots 0 = 7 ∧
      (c.system.consumers 0).Entitled (c.system.memory.consumerCursors 0) 0) ∧
    (∃ ts c, MultiClientPath ring64 (pollerThenHandlerWiring .multiProducer) (fun _ => 0) ts c ∧
      c.held 0 = [0] ∧ flips (ts.flatMap Transition.events) = [0] ∧
      c.system.memory.slots 0 = 7 ∧
      (c.system.consumers 0).Entitled (c.system.memory.consumerCursors 0) 0) := by
  constructor
  · have hRecord : (record (clientStep ring4 uniSignatures
        (UniSystem.step ring4 (pollerThenHandlerWiring .uniProducer)))
        (Client.init (UniSystem.init ring4 (pollerThenHandlerWiring .uniProducer) fun _ => 0))
        uniKept).any (fun x => x.2.held 0 = [0] ∧ x.2.system.memory.cursor = 0 ∧
          x.2.system.memory.slots 0 = 7 ∧
          (x.2.system.consumers 0).Entitled (x.2.system.memory.consumerCursors 0) 0) = true := by
      decide
    obtain ⟨ts, c, hPath, hState⟩ := Path.of_schedule
      (by decide : ∀ a ∈ uniKept, ClientAct.ok UniAct.InRange a) hRecord
    exact ⟨ts, c, hPath, of_decide_eq_true hState⟩
  · have hRecord : (record (clientStep ring64.toRingSize multiSignatures
        (MultiSystem.step ring64.toRingSize (pollerThenHandlerWiring .multiProducer)))
        (Client.init (MultiSystem.init ring64.toRingSize
          (pollerThenHandlerWiring .multiProducer) fun _ => 0))
        multiKept).any (fun x => x.2.held 0 = [0] ∧
          flips (x.1.flatMap Transition.events) = [0] ∧ x.2.system.memory.slots 0 = 7 ∧
          (x.2.system.consumers 0).Entitled (x.2.system.memory.consumerCursors 0) 0) = true := by
      decide
    obtain ⟨ts, c, hPath, hState⟩ := Path.of_schedule
      (by decide : ∀ a ∈ multiKept, ClientAct.ok MultiAct.InRange a) hRecord
    exact ⟨ts, c, hPath, of_decide_eq_true hState⟩

end Calvera
