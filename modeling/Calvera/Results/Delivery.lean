import Calvera.Refinement.Disruptor
import Calvera.Refinement.History
import Calvera.Results.SlotExclusion

/-!
# Results — delivery

Producers finish in any order and slots are changed in place, round after
round. Consumers observe nothing of that: every one of them is given the same
values, in the order of their sequences, from `0` on.

* `uni_delivery`   — with one producer, what consumers observe are prefixes of
  the history of its successful calls.
* `multi_delivery` — claims partition `0..=cursor`, batches are contiguous
  blocks, each consumer observes the stream of values up to its next sequence,
  and of two streams one is a prefix of the other.
-/

namespace Calvera

open Calvera.Lib Calvera.Protocol

variable {E : Type} {R : RingSize} {T : Topology Nat} {w : Wiring}

/-- **The iterator of a batch runs through its claim**, from the lower end up. -/
theorem MultiInv.iterator {tr : List (Event E)} {s : MultiSystem E} (hInv : MultiInv R T tr s)
    {h k : Nat} {op : Op E} {iter : MutBatchIter}
    (hPc : (s.producer.handles h).pc = .updates op iter k) :
    ∃ claim ∈ claims tr, claim.handle = h ∧ claim.update = op.update ∧
      claim.upper + 1 = claim.lower + op.n ∧ iter.current = claim.lower + k ∧
      iter.last = claim.upper := by
  have hOk := hInv.handle h
  simp only [MultiProducer.Ok, hPc] at hOk
  obtain ⟨hHolds, -, hLast, hCurrent, -⟩ := hOk
  have hN := hHolds.inRange.nI64
  refine ⟨_, hHolds.claim, rfl, rfl, ?_, hCurrent, hLast⟩
  show (s.producer.handles h).claimedSequence + 1 = _ - op.nI64 + 1 + op.n
  omega

/-- The values follow from the claims. -/
theorem Tiled.value_law {factory : Nat → E} {cs : List (Claim E)} {hi : Int} (hTiled : Tiled cs hi)
    {claim : Claim E} (hMem : claim ∈ cs) {t : Int} (hCovers : claim.Covers t) :
    valueAt R factory cs t = claim.update (t - claim.lower).toNat
      (if t < R.size then factory (R.slot t) else valueAt R factory cs (t - R.size)) := by
  rw [hTiled.valueAt_eq hMem hCovers]
  split
  · rw [valueAt_neg (by omega), R.slot_eq, R.slot_eq, slotOf_sub_size]
  · rfl

/-- What a consumer is given next is claimed, or the next to be claimed. -/
theorem System.Consistent.nextSequence_le {P : Type} {s : System P E} {producerBarrier : Barrier}
    {claimed : Int} {published : Set Int}
    (h : s.Consistent R T producerBarrier claimed published) {c : Nat} (hMem : c ∈ T.members) :
    s.nextSequence c ≤ claimed + 1 := by
  have hNext := h.next_bounds hMem
  have hCursor : s.memory.consumerCursors c ≤ claimed := h.inv.cursor_le_claimed hMem
  have hGranted : (s.consumers c).granted (s.memory.consumerCursors c) ≤ claimed :=
    h.inv.granted_le_claimed hMem
  omega

/-- **Delivery with many producers.** In every reachable state of a run whose
closures return: the successful claims partition `0..=cursor`, in increasing
order; the iterator of a batch runs through the `n` sequences of its claim; and
there are values, each made by the update claimed for its sequence from the
value one round before, such that every managed consumer, and every poller that
iterates its guards to the end, has observed exactly the values from sequence
`0` up to its next sequence, in order. So of two consumers' streams one is a
prefix of the other. -/
theorem multi_delivery (R : MultiRingSize) (chain : BuildChain) (w : Wiring)
    (hBuild : chain.build buildMultiProducerUnchecked = some w) (factory : Nat → E)
    (tr : List (Event E)) (s : MultiSystem E) (hRun : MultiRun R w factory tr s)
    (hReturn : NoUnwind tr) :
    (∀ t, 0 ≤ t ∧ t ≤ s.memory.cursor ↔ ∃ claim ∈ claims tr, claim.Covers t) ∧
    (claims tr).Pairwise (fun claim claim' => claim.upper < claim'.lower) ∧
    (∀ h op iter k, (s.producer.handles h).pc = .updates op iter k →
      ∃ claim ∈ claims tr, claim.handle = h ∧ claim.update = op.update ∧
        claim.upper + 1 = claim.lower + op.n ∧ iter.current = claim.lower + k ∧
        iter.last = claim.upper) ∧
    (∃ value : Int → E,
      (∀ claim ∈ claims tr, ∀ t, claim.Covers t → value t = claim.update (t - claim.lower).toNat
        (if t < R.size then factory (R.slot t) else value (t - R.size))) ∧
      ∀ c spec, w.consumers[c]? = some spec → (spec.kind = .poller → Exhausts c tr) →
        s.nextSequence c ≤ s.memory.cursor + 1 ∧
        observed c tr = stream value (s.nextSequence c)) ∧
    (∀ c c' spec spec', w.consumers[c]? = some spec → (spec.kind = .poller → Exhausts c tr) →
      w.consumers[c']? = some spec' → (spec'.kind = .poller → Exhausts c' tr) →
      observed c tr <+: observed c' tr ∨ observed c' tr <+: observed c tr) := by
  have hWired := BuildChain.wired_multi hBuild
  have hInv := MultiRun.inv hWired hRun
  have hObserved := fun (c : Nat) (spec : ConsumerSpec) (hSpec : w.consumers[c]? = some spec)
      hPoller => MultiRun.observed hWired hRun hReturn (hWired.mem hSpec)
        ((MultiRun.disruptor hWired factory).exhausts hRun hSpec hPoller)
  refine ⟨fun t => ⟨fun ht => hInv.tiled.exists_claim ht.1 ht.2, ?_⟩, hInv.tiled.pairwise,
    fun h op iter k hPc => hInv.iterator hPc,
    ⟨valueAt R.toRingSize factory (claims tr), fun claim hMem t hCovers =>
      hInv.tiled.value_law hMem hCovers, fun c spec hSpec hPoller =>
      ⟨hInv.consistent.nextSequence_le (hWired.mem hSpec), hObserved c spec hSpec hPoller⟩⟩,
    fun c c' spec spec' hSpec hPoller hSpec' hPoller' => ?_⟩
  · rintro ⟨claim, hMem, hlo, hhi⟩
    have := hInv.tiled.bounds hMem
    omega
  · rw [hObserved c spec hSpec hPoller, hObserved c' spec' hSpec' hPoller']
    rcases le_total (s.nextSequence c) (s.nextSequence c') with hle | hle
    · exact .inl (stream_le _ hle)
    · exact .inr (stream_le _ hle)

/-- Two events of two handles, both read by the poller, the first by the handler. -/
def twoDelivered : List (Act (MultiAct Nat)) :=
  [.producer (.clone 0), call 0 (.publish (· + 1))] ++ ticks 0 5 ++
    [call 1 (.tryPublish (· + 2))] ++ ticks 1 7 ++ pollTicks 0 5 ++
    [.consumer 0 .next, .consumer 0 .next, .consumer 0 .dropGuard] ++
    List.replicate 2 (.consumer 1 .tick)

theorem multi_delivery_two : ∃ tr s,
    MultiRun ring64 (pollerThenHandlerWiring .multiProducer) (fun _ => 0) tr s ∧
    observed 0 tr = [(0, 1), (1, 2)] ∧ observed 1 tr = [(0, 1)] ∧
    (observed 0 tr <+: observed 1 tr ∨ observed 1 tr <+: observed 0 tr) := by
  have hExec : (execMulti twoDelivered).any (fun x =>
      observed 0 x.2 = [(0, 1), (1, 2)] ∧ observed 1 x.2 = [(0, 1)] ∧
        x.2.all (fun | .unwound .. => false | _ => true) ∧
        x.2.all (fun | .guardDropped _ q v => v < q | _ => true)) = true := by
    decide
  obtain ⟨tr, s, hRun, hState⟩ := Run.of_schedule
    (by decide : ∀ a ∈ twoDelivered, MultiAct.InRange a) hExec
  obtain ⟨hPoller, hHandler, hAll, hGuards⟩ := of_decide_eq_true hState
  rw [List.all_eq_true] at hAll hGuards
  have hReturn : NoUnwind tr := fun _ _ _ hMem => by simpa using hAll _ hMem
  have hExhausts : Exhausts 0 tr := fun _ _ hMem => by simpa using hGuards _ hMem
  obtain ⟨-, -, -, -, hPrefix⟩ :=
    multi_delivery ring64 pollerThenHandler _ rfl _ tr s hRun hReturn
  exact ⟨tr, s, hRun, hPoller, hHandler,
    hPrefix 0 1 _ _ rfl (fun _ => hExhausts) rfl (fun h => by simp at h)⟩

-- ---------------------------------------------------------------------------
-- One producer
-- ---------------------------------------------------------------------------

/-- A consumer is given published sequences only. -/
theorem UniInv.nextSequence_le {tr : List (Event E)} {s : UniSystem E} (hInv : UniInv R T tr s)
    {c : Nat} (hMem : c ∈ T.members) : s.nextSequence c ≤ s.memory.cursor + 1 := by
  have hNext := hInv.consistent.next_bounds hMem
  have hGranted : (s.consumers c).granted (s.memory.consumerCursors c) < s.producer.sequence :=
    hInv.mem_publishedBy_iff.mp (hInv.consistent.inv.granted_published hMem (le_refl _))
  have hCursor : s.memory.consumerCursors c ≤
      (s.consumers c).granted (s.memory.consumerCursors c) :=
    hInv.consistent.inv.cursor_le_granted c hMem
  have hPublished := hInv.cursor
  omega

/-- A refusal changes nothing that consumers see, nor the producer's position. -/
theorem UniStep.refused {barrier : Barrier} {handles : List Nat} {exited : Nat → Bool}
    {m m' : Memory E} {p p' : UniProducer E} {act : UniAct E} {es : List (Event E)}
    (hStep : UniStep R barrier handles exited m p act m' p' es) {missing : Nat}
    (hMem : .refused 0 missing ∈ es) : m' = m ∧ p'.sequence = p.sequence ∧ Quiet es := by
  cases hStep with
  | refuse hPc hFree hlt hRefuse =>
    have hIdle := UniHistory.refuse hRefuse
    exact ⟨rfl, hIdle.sequence, hIdle.quiet⟩
  | call hPc hNext =>
    rcases UniProducer.nextSequences_cases hNext with ⟨-, rfl⟩ | ⟨-, rfl, -⟩ <;> simp at hMem
  | fast hPc hle hClaim =>
    obtain ⟨-, rfl⟩ := Prod.mk.inj hClaim
    simp at hMem
  | accept hPc hFree hle hClear hClaim =>
    obtain ⟨-, rfl⟩ := Prod.mk.inj hClaim
    simp at hMem
  | _ => simp at hMem

/-- **Delivery with one producer.** In every reachable state of a run whose
closures return: the published history is, in order, what the successful calls
claimed, from sequence `0` on; there are values, each made by the update claimed
for its sequence from the value one round before, such that every managed
consumer, and every poller that iterates its guards to the end, has observed
exactly the first sequences of the history with these values, up to its next
sequence; and a step that refuses a call changes neither the memory nor the
history. -/
theorem uni_delivery (R : RingSize) (chain : BuildChain) (w : Wiring)
    (hBuild : chain.build buildUniProducerUnchecked = some w) (factory : Nat → E)
    (tr : List (Event E)) (s : UniSystem E) (hRun : UniRun R w factory tr s)
    (hReturn : NoUnwind tr) :
    flips tr = seqRange 0 s.memory.cursor ∧
    flips tr = ((claims tr).take (successes tr)).flatMap
      (fun claim => seqRange claim.lower claim.upper) ∧
    (∃ value : Int → E,
      (∀ claim ∈ claims tr, ∀ t, claim.Covers t → value t = claim.update (t - claim.lower).toNat
        (if t < R.size then factory (R.slot t) else value (t - R.size))) ∧
      ∀ c spec, w.consumers[c]? = some spec → (spec.kind = .poller → Exhausts c tr) →
        observed c tr = (seqRange 0 (s.nextSequence c - 1)).map (fun t => (t, value t)) ∧
        observed c tr <+: (flips tr).map fun t => (t, value t)) ∧
    (∀ act s' es missing, UniSystem.step R w s act = some (s', es) → .refused 0 missing ∈ es →
      s'.memory = s.memory ∧ s'.producer.sequence = s.producer.sequence ∧ Quiet es) := by
  have hWired := BuildChain.wired_uni hBuild
  have hInv := UniRun.inv hWired hRun
  have hHistory := UniRun.history hWired hRun hReturn
  have hFlips : flips tr = seqRange 0 s.memory.cursor := hInv.cursor ▸ hInv.flipped
  refine ⟨hFlips, ?_, ⟨valueAt R factory (claims tr),
    fun claim hMem t hCovers => hHistory.tiled.value_law hMem hCovers, ?_⟩, ?_⟩
  · obtain ⟨done, hDone, hLength, hEq⟩ := hHistory.done
    rw [hEq, hDone, ← hLength, List.take_left]
  · intro c spec hSpec hPoller
    have hExhausts := (UniRun.disruptor hWired factory).exhausts hRun hSpec hPoller
    have hObserved := UniRun.observed hWired hRun hReturn (hWired.mem hSpec) hExhausts
    refine ⟨hObserved.trans (stream_eq _ _), ?_⟩
    have hLe := stream_le (valueAt R factory (claims tr)) (hInv.nextSequence_le (hWired.mem hSpec))
    rw [← hObserved, stream_eq _ (s.memory.cursor + 1), Int.add_sub_cancel] at hLe
    rwa [hFlips]
  · intro act s' es missing hs hMem
    cases uniStep_cases hs with
    | consumer hSpec hStep => exact (hStep.ofConsumer _ hMem).elim
    | producer hStep => exact hStep.refused hMem

/-- A publish, a batch of two, and a batch that does not fit; the poller reads
two events, the handler the first of them. -/
def uniDelivered : List (Act (UniAct Nat)) :=
  [.producer (.call (.publish (· + 1)))] ++ uniTicks 3 ++
    [.producer (.call (.tryBatchPublish 2 fun k e => e + 2 + k))] ++ uniTicks 5 ++
    [.producer (.call (.tryBatchPublish 2 fun _ e => e))] ++ uniTicks 3 ++
    [.consumer 0 (.pollTake 2), .consumer 0 .tick, .consumer 0 .tick, .consumer 0 .next,
      .consumer 0 .next, .consumer 0 .dropGuard] ++ List.replicate 2 (.consumer 1 .tick)

theorem uni_delivery_refused : ∃ tr s, ∃ value : Int → Nat,
    UniRun ring4 (pollerThenHandlerWiring .uniProducer) (fun _ => 0) tr s ∧
    observed 0 tr = [(0, 1), (1, 2)] ∧ observed 1 tr = [(0, 1)] ∧ successes tr = 2 ∧
    .refused 0 1 ∈ tr ∧ observed 0 tr <+: (flips tr).map fun t => (t, value t) := by
  have hExec : (execUni uniDelivered).any (fun x =>
      observed 0 x.2 = [(0, 1), (1, 2)] ∧ observed 1 x.2 = [(0, 1)] ∧ successes x.2 = 2 ∧
        x.2.any (fun | .refused 0 1 => true | _ => false) ∧
        x.2.all (fun | .unwound .. => false | _ => true) ∧
        x.2.all (fun | .guardDropped _ q v => v < q | _ => true)) = true := by
    decide
  obtain ⟨tr, s, hRun, hState⟩ := Run.of_schedule
    (by decide : ∀ a ∈ uniDelivered, UniAct.InRange a) hExec
  obtain ⟨hPoller, hHandler, hSuccesses, hRefused, hAll, hGuards⟩ := of_decide_eq_true hState
  rw [List.any_eq_true] at hRefused
  rw [List.all_eq_true] at hAll hGuards
  have hReturn : NoUnwind tr := fun _ _ _ hMem => by simpa using hAll _ hMem
  have hExhausts : Exhausts 0 tr := fun _ _ hMem => by simpa using hGuards _ hMem
  obtain ⟨-, -, ⟨value, -, hObserved⟩, -⟩ :=
    uni_delivery ring4 pollerThenHandler _ rfl _ tr s hRun hReturn
  obtain ⟨e, hMem, hIs⟩ := hRefused
  refine ⟨tr, s, value, hRun, hPoller, hHandler, hSuccesses, ?_,
    (hObserved 0 _ rfl fun _ => hExhausts).2⟩
  split at hIs
  · exact hMem
  · cases hIs

end Calvera
