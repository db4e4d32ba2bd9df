import Calvera.Refinement.Multi
import Calvera.Refinement.Uni

/-!
# Results — slot exclusion

The `unsafe` dereferences of `RingBuffer::get` and `RingBuffer::get_ref` are
sound when nobody else uses the slot. A producer may write to the slots of what
it claimed and did not publish yet; a consumer may read what it is entitled to
(`ConsumerPc.Entitled`). These never meet, for any wiring a builder produces
and any interleaving.

* `multi_slot_exclusion` — for all handles of a `MultiProducer`.
* `uni_slot_exclusion`   — for a `UniProducer`.
-/

namespace Calvera

open Calvera.Lib Calvera.Protocol

variable {E : Type}

-- ---------------------------------------------------------------------------
-- Many producers
-- ---------------------------------------------------------------------------

/-- Handle `h` claimed sequence `t`, and `t` is not published. -/
def Unpublished (tr : List (Event E)) (h : Nat) (t : Int) : Prop :=
  (∃ claim ∈ claims tr, claim.handle = h ∧ claim.Covers t) ∧ t ∉ flips tr

/-- An unpublished claim is a claim of the pipeline that is not published there. -/
theorem Unpublished.pending {R : RingSize} {T : Topology Nat} {tr : List (Event E)}
    {s : MultiSystem E} (hInv : MultiInv R T tr s) {h : Nat} {t : Int} (ht : Unpublished tr h t) :
    t ∉ publishedBy tr ∧ t ≤ s.memory.cursor := by
  obtain ⟨⟨claim, hMem, -, hlo, hhi⟩, hFlips⟩ := ht
  have := hInv.tiled.bounds hMem
  rw [mem_publishedBy, not_or]
  exact ⟨⟨by omega, hFlips⟩, by omega⟩

/-- **Slot exclusion with many producers.** In every reachable state, the
sequences a handle has claimed and not published lie in pairwise distinct
slots, and share none with another handle's, nor with what a consumer of any
stage is entitled to read. -/
theorem multi_slot_exclusion (R : MultiRingSize) (chain : BuildChain) (w : Wiring)
    (hBuild : chain.build buildMultiProducerUnchecked = some w) (factory : Nat → E)
    (tr : List (Event E)) (s : MultiSystem E) (hRun : MultiRun R w factory tr s) :
    (∀ h t u, Unpublished tr h t → Unpublished tr h u → R.slot t = R.slot u → t = u) ∧
    (∀ h h' t u, h ≠ h' → Unpublished tr h t → Unpublished tr h' u → R.slot t ≠ R.slot u) ∧
    (∀ h t c u, Unpublished tr h t → c < w.consumers.length →
      (s.consumers c).Entitled (s.memory.consumerCursors c) u → R.slot t ≠ R.slot u) := by
  have hWired := BuildChain.wired_multi hBuild
  have hInv := hRun.inv hWired
  have hPipeline := hInv.consistent.inv
  have hSame : ∀ h h' t u, Unpublished tr h t → Unpublished tr h' u → R.slot t = R.slot u →
      t = u := by
    intro h h' t u ht hu hSlot
    obtain ⟨htNew, htLe⟩ := ht.pending hInv
    obtain ⟨huNew, huLe⟩ := hu.pending hInv
    exact ring_exclusion hPipeline htNew htLe (.inl ⟨huNew, huLe⟩) hSlot
  refine ⟨fun h => hSame h h, ?_, ?_⟩
  · intro h h' t u hne ht hu hSlot
    -- one sequence has one claim, and a claim has one handle
    obtain rfl := hSame h h' t u ht hu hSlot
    obtain ⟨⟨claim, hMem, rfl, hCovers⟩, -⟩ := ht
    obtain ⟨⟨claim', hMem', rfl, hCovers'⟩, -⟩ := hu
    exact hne (by rw [hInv.tiled.unique hMem hMem' hCovers hCovers'])
  · intro h t c u ht hc hu hSlot
    obtain ⟨htNew, htLe⟩ := ht.pending hInv
    have hMem := (hWired.mem_iff c).mpr hc
    have hEntitled := hInv.consistent.entitled hMem hu
    obtain rfl := ring_exclusion hPipeline htNew htLe (.inr ⟨c, hMem, hEntitled⟩) hSlot
    exact htNew (hPipeline.granted_published hMem hEntitled.2)

/-- A ring of 64 slots. -/
def ring64 : MultiRingSize where
  exponent := 6
  le := by decide
  ge := by decide

/-- A poller, and behind it a managed consumer. -/
def pollerThenHandler : BuildChain := .sc (.first .handler (.andThenSC (.first .poller .new)))

/-- The wiring of `pollerThenHandler`. -/
def pollerThenHandlerWiring (producerBarrier : Barrier) : Wiring where
  consumers := [⟨.poller, producerBarrier⟩, ⟨.handler, .uniConsumer 0⟩]
  consumerHandles := [1]
  consumerBarrier := .uniConsumer 1

/-- `n` steps of handle `h`. -/
def ticks (h n : Nat) : List (Act (MultiAct Nat)) := List.replicate n (.producer (.handle h .tick))

/-- A call on handle `h`. -/
def call (h : Nat) (op : Op Nat) : Act (MultiAct Nat) := .producer (.handle h (.call op))

/-- A poll of consumer `c` that takes `n` steps. -/
def pollTicks (c n : Nat) {A : Type} : List (Act A) :=
  .consumer c .poll :: List.replicate n (.consumer c .tick)

/-- Execute a schedule on `pollerThenHandler` with 64 slots. -/
def execMulti (as : List (Act (MultiAct Nat))) : Option (MultiSystem Nat × List (Event Nat)) :=
  exec (MultiSystem.step ring64.toRingSize (pollerThenHandlerWiring .multiProducer))
    (MultiSystem.init ring64.toRingSize (pollerThenHandlerWiring .multiProducer) fun _ => 0) as

/-- Sequence `0` is in a guard of the poller, handle `0` is in the closure for
sequence `1`, and its clone in the closure for `2..=3`. -/
def twoHandles : List (Act (MultiAct Nat)) :=
  [.producer (.clone 0), call 0 (.publish (· + 1))] ++ ticks 0 5 ++ pollTicks 0 4 ++
    [call 0 (.tryPublish (· + 2))] ++ ticks 0 3 ++
    [call 1 (.tryBatchPublish 2 fun k e => e + k)] ++ ticks 1 5

theorem multi_slot_exclusion_two_handles : ∃ tr s,
    MultiRun ring64 (pollerThenHandlerWiring .multiProducer) (fun _ => 0) tr s ∧
    Unpublished tr 0 1 ∧ Unpublished tr 1 2 ∧
    (s.consumers 0).Entitled (s.memory.consumerCursors 0) 0 ∧
    ring64.slot 1 ≠ ring64.slot 2 ∧ ring64.slot 1 ≠ ring64.slot 0 := by
  have hExec : (execMulti twoHandles).any (fun x =>
      (claims x.2).map (fun claim => (claim.handle, claim.lower, claim.upper)) =
          [(0, 0, 0), (0, 1, 1), (1, 2, 3)] ∧
        flips x.2 = [0] ∧ (x.1.consumers 0).Entitled (x.1.memory.consumerCursors 0) 0) = true := by
    decide
  obtain ⟨tr, s, hRun, hState⟩ := Run.of_schedule
    (by decide : ∀ a ∈ twoHandles, MultiAct.InRange a) hExec
  obtain ⟨hClaims, hFlips, hEntitled⟩ := of_decide_eq_true hState
  have hUnpublished : ∀ h lower upper t, (h, lower, upper) ∈ [(0, 0, 0), (0, 1, 1), (1, 2, 3)] →
      lower ≤ t → t ≤ upper → t ≠ 0 → Unpublished tr h t := by
    intro h lower upper t hMem hlo hhi hne
    rw [← hClaims] at hMem
    obtain ⟨claim, hIn, hEq⟩ := List.mem_map.mp hMem
    simp only [Prod.mk.injEq] at hEq
    obtain ⟨rfl, rfl, rfl⟩ := hEq
    exact ⟨⟨claim, hIn, rfl, hlo, hhi⟩, by simpa [hFlips] using hne⟩
  have h₁ := hUnpublished 0 1 1 1 (by decide) (by decide) (by decide) (by decide)
  have h₂ := hUnpublished 1 2 3 2 (by decide) (by decide) (by decide) (by decide)
  obtain ⟨-, hOther, hConsumers⟩ := multi_slot_exclusion ring64 pollerThenHandler _ rfl _ tr s hRun
  exact ⟨tr, s, hRun, h₁, h₂, hEntitled, hOther 0 1 1 2 (by decide) h₁ h₂,
    hConsumers 0 1 0 0 h₁ (by decide) hEntitled⟩

-- ---------------------------------------------------------------------------
-- One producer
-- ---------------------------------------------------------------------------

/-- The call in progress, between the return of `next_sequences` and the store
to the producer barrier. -/
def UniPc.holding : UniPc E → Option (Op E)
  | .update op | .updates op _ _ | .publish op => some op
  | _ => none

/-- **Slot exclusion with one producer.** Between a successful
`next_sequences(n)` and the store to the producer barrier, `n` is at most the
ring size, the `n` claimed sequences lie in pairwise distinct slots, the
iterator of a batch runs through them one by one, and none of their slots is
that of a sequence a consumer of any stage is entitled to read. -/
theorem uni_slot_exclusion (R : RingSize) (chain : BuildChain) (w : Wiring)
    (hBuild : chain.build buildUniProducerUnchecked = some w) (factory : Nat → E)
    (tr : List (Event E)) (s : UniSystem E) (hRun : UniRun R w factory tr s) (op : Op E)
    (hHolding : s.producer.pc.holding = some op) :
    op.n ≤ R.size ∧
    (∀ i j : Nat, i < op.n → j < op.n →
      R.slot (s.producer.sequence + i) = R.slot (s.producer.sequence + j) → i = j) ∧
    (∀ iter k, s.producer.pc = .updates op iter k →
      iter.current = s.producer.sequence + k ∧ iter.last = s.producer.sequence + op.n - 1) ∧
    (∀ (i : Nat) c u, i < op.n → c < w.consumers.length →
      (s.consumers c).Entitled (s.memory.consumerCursors c) u →
      R.slot (s.producer.sequence + i) ≠ R.slot u) := by
  have hWired := BuildChain.wired_uni hBuild
  have hInv := hRun.inv hWired
  have hPipeline := hInv.consistent.inv
  have hOk := hInv.pc
  have hClaim : op.nI64 = op.n ∧ s.producer.claimed = s.producer.sequence - 1 + op.n ∧
      ∀ iter k, s.producer.pc = .updates op iter k →
        iter.current = s.producer.sequence + k ∧ iter.last = s.producer.sequence + op.n - 1 := by
    unfold UniProducer.claimed
    cases hPc : s.producer.pc <;> rw [hPc] at hHolding hOk <;> cases hHolding
    · exact ⟨hOk.1.nI64, by rw [← hOk.1.nI64]; rfl, by simp⟩
    · obtain ⟨hRange, hLast, hCurrent, -⟩ := hOk
      have hN := hRange.nI64
      refine ⟨hN, by rw [← hN]; rfl, fun iter k hEq => ?_⟩
      obtain ⟨-, rfl, rfl⟩ := UniPc.updates.inj hEq
      exact ⟨hCurrent, by rw [hLast, hN]⟩
    · have hN : op.nI64 = op.n := Op.InRange.nI64 hOk
      exact ⟨hN, by rw [← hN]; rfl, by simp⟩
  obtain ⟨hN, hClaimed, hIter⟩ := hClaim
  -- what is claimed and not published
  have hNew : ∀ i : Nat, i < op.n → s.producer.sequence + i ∉ publishedBy tr ∧
      s.producer.sequence + i ≤ s.producer.claimed := by
    intro i hi
    rw [hInv.mem_publishedBy_iff]
    omega
  refine ⟨?_, ?_, hIter, ?_⟩
  · have hRoom : s.producer.claimed - s.producer.sequence + 1 ≤ (R.size : Int) :=
      hPipeline.unpublished_le_size fun t hlo hhi => by
        show t ∉ publishedBy tr
        rw [hInv.mem_publishedBy_iff]
        omega
    omega
  · intro i j hi hj hSlot
    have hEq := ring_exclusion hPipeline (hNew i hi).1 (hNew i hi).2 (.inl (hNew j hj)) hSlot
    omega
  · intro i c u hi hc hu hSlot
    have hMem := (hWired.mem_iff c).mpr hc
    have hEntitled := hInv.consistent.entitled hMem hu
    have hEq := ring_exclusion hPipeline (hNew i hi).1 (hNew i hi).2 (.inr ⟨c, hMem, hEntitled⟩)
      hSlot
    exact (hNew i hi).1 (hEq ▸ hPipeline.granted_published hMem hEntitled.2)

/-- A ring of 4 slots. -/
def ring4 : RingSize where
  exponent := 2
  le := by decide

/-- Execute a schedule on `pollerThenHandler` with 4 slots. -/
def execUni (as : List (Act (UniAct Nat))) : Option (UniSystem Nat × List (Event Nat)) :=
  exec (UniSystem.step ring4 (pollerThenHandlerWiring .uniProducer))
    (UniSystem.init ring4 (pollerThenHandlerWiring .uniProducer) fun _ => 0) as

/-- `n` steps of the single producer. -/
def uniTicks (n : Nat) : List (Act (UniAct Nat)) := List.replicate n (.producer .tick)

/-- Sequence `0` is in a guard of the poller, and the producer in the closure
for `1..=2`, having changed the first of them. -/
def uniBatch : List (Act (UniAct Nat)) :=
  [.producer (.call (.publish (· + 1)))] ++ uniTicks 3 ++ pollTicks 0 2 ++
    [.producer (.call (.tryBatchPublish 2 fun k e => e + k))] ++ uniTicks 2

theorem uni_slot_exclusion_batch : ∃ tr s op,
    UniRun ring4 (pollerThenHandlerWiring .uniProducer) (fun _ => 0) tr s ∧
    s.producer.pc.holding = some op ∧ op.n = 2 ∧
    (s.consumers 0).Entitled (s.memory.consumerCursors 0) 0 ∧
    op.n ≤ ring4.size ∧ ring4.slot (s.producer.sequence + (0 : Nat)) ≠ ring4.slot 0 := by
  have hExec : (execUni uniBatch).any (fun x =>
      (x.1.producer.pc.holding.map Op.n) = some 2 ∧
        (x.1.consumers 0).Entitled (x.1.memory.consumerCursors 0) 0) = true := by
    decide
  obtain ⟨tr, s, hRun, hState⟩ := Run.of_schedule
    (by decide : ∀ a ∈ uniBatch, UniAct.InRange a) hExec
  obtain ⟨hHolding, hEntitled⟩ := of_decide_eq_true hState
  obtain ⟨op, hOp, hN⟩ := Option.map_eq_some_iff.mp hHolding
  obtain ⟨hSize, -, -, hConsumers⟩ :=
    uni_slot_exclusion ring4 pollerThenHandler _ rfl _ tr s hRun op hOp
  exact ⟨tr, s, op, hRun, hOp, hN, hEntitled, hSize,
    hConsumers 0 0 0 (by omega) (by decide) hEntitled⟩

end Calvera
