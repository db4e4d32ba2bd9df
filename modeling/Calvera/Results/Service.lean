import Calvera.Refinement.Service
import Calvera.Results.Progress

/-!
# Results — everything published arrives

Safety says that consumers are given nothing but what is published, in order.
They also get there: in every fair execution, whatever the stages, the other
threads and the clients of pollers upstream do in between.

* `published_arrives` — for both disruptors.
-/

namespace Calvera

open Calvera.Lib Calvera.Protocol

variable {E P A : Type} {R : RingSize} {w : Wiring} {producerBarrier : Barrier} {chain : BuildChain}
  {step : System P E → Act A → Option (System P E × List (Event E))} {ok : Act A → Prop}
  {s₀ : System P E}

/-- Consumer `c` goes on, and so do all consumers of the stages before it. -/
def BuildChain.ServedUpTo (chain : BuildChain) (x : Execution step ok s₀) (c : Nat) : Prop :=
  ∀ c', Relation.ReflTransGen chain.Before c' c → Served x c'

/-- Cursors only move forward. -/
theorem Disruptor.cursor_keeps {T : Topology Nat} (hD : Disruptor R T w producerBarrier step ok s₀)
    (x : Execution step ok s₀) {c : Nat} (hMem : c ∈ T.members) {v : Int} {i j : Nat} (hij : i ≤ j)
    (h : v ≤ (x.state i).memory.consumerCursors c) : v ≤ (x.state j).memory.consumerCursors c := by
  refine x.keeps (P := fun _ s => v ≤ s.memory.consumerCursors c)
    (fun hRun h _ hs => ?_) hij h
  obtain ⟨claimed, hC, -⟩ := hD.consistent hRun
  exact h.trans (hC.cursor_mono hD.wired (hD.move hs) c hMem)

/-- What every consumer of a stage gets to, passes the stage. -/
theorem Disruptor.passes {T : Topology Nat} (hD : Disruptor R T w producerBarrier step ok s₀)
    {x : Execution step ok s₀} {v : Int} {i k : Nat}
    (h : ∀ c ∈ T.members, T.stage c = k →
      ∃ j, i ≤ j ∧ v ≤ (x.state j).memory.consumerCursors c) :
    ∃ j, i ≤ j ∧ (x.state j).Passed T (k + 1) v (x.trace j) := by
  obtain ⟨j, hij, hAll⟩ := exists_forall (T.members.filter fun c => T.stage c = k)
    (P := fun c j => c ∈ T.members → v ≤ (x.state j).memory.consumerCursors c)
    (fun c j h hMem => hD.cursor_keeps x hMem (Nat.le_succ j) (h hMem))
    (fun c hIn => by
      obtain ⟨hMem, hStage⟩ := Finset.mem_filter.mp hIn
      obtain ⟨j, hij, hle⟩ := h c hMem hStage
      exact ⟨j, hij, fun _ => hle⟩)
  exact ⟨j, hij, fun c hMem hStage => hAll c (Finset.mem_filter.mpr ⟨hMem, hStage⟩) hMem⟩

/-- **What has passed the producers passes every stage that is served.** -/
theorem Disruptor.arrives (hD : Disruptor R chain.topology w producerBarrier step ok s₀)
    {x : Execution step ok s₀} {c : Nat} (hMem : c ∈ chain.topology.members)
    (hServed : chain.ServedUpTo x c) {v : Int} {i : Nat}
    (hPassed : (x.state i).Passed chain.topology 0 v (x.trace i)) :
    ∃ j, i ≤ j ∧ v ≤ (x.state j).memory.consumerCursors c := by
  induction hStage : chain.topology.stage c generalizing c with
  | zero => exact hD.advances hMem (hServed c .refl) (hStage ▸ hPassed)
  | succ k ih =>
    -- all of the stage before arrive, and stay there
    obtain ⟨j, hij, hPassed'⟩ := hD.passes (T := chain.topology) (k := k) fun c' hMem' hStage' =>
      have hNext := BuildChain.before_of_stage hMem hMem' (by rw [hStage, hStage'])
      ih hMem' (fun c'' hPath => hServed c'' (hPath.tail hNext)) hStage'
    rw [← hStage] at hPassed'
    obtain ⟨k', hjk, hle⟩ := hD.advances hMem (hServed c .refl) hPassed'
    exact ⟨k', hij.trans hjk, hle⟩

/-- A sequence that consumer `c` was given, if it looked at all of its guards. -/
theorem Disruptor.observed_of_cursor {T : Topology Nat} {s : System P E} {tr : List (Event E)}
    (hD : Disruptor R T w producerBarrier step ok s₀) (hRun : Run step ok s₀ tr s) {c : Nat}
    {spec : ConsumerSpec} (hSpec : w.consumers[c]? = some spec)
    (hPoller : spec.kind = .poller → Exhausts c tr) {t : Int} (hLo : 0 ≤ t)
    (hHi : t ≤ s.memory.consumerCursors c) : t ∈ (Calvera.observed c tr).map Prod.fst := by
  have hMem := hD.wired.mem hSpec
  obtain ⟨claimed, hC, -⟩ := hD.consistent hRun
  have hNext := (hC.next_bounds hMem).1
  rw [hD.observed hRun hMem (hD.exhausts hRun hSpec hPoller), mem_seqRange]
  omega

/-- Consumer `c` comes to have its cursor at `v` at least, and to have been given
all sequences up to `v`; a poller, if its client looked at them. -/
def Arrives (w : Wiring) (x : Execution step ok s₀) (c i : Nat) (v : Int) : Prop :=
  ∃ j, i ≤ j ∧ v ≤ (x.state j).memory.consumerCursors c ∧
    ((∀ spec, w.consumers[c]? = some spec → spec.kind = .poller → Exhausts c (x.trace j)) →
      ∀ t, 0 ≤ t → t ≤ v → t ∈ (observed c (x.trace j)).map Prod.fst)

theorem Disruptor.arrives_of_published
    (hD : Disruptor R chain.topology w producerBarrier step ok s₀) {x : Execution step ok s₀}
    {c : Nat} (hc : c < w.consumers.length) (hServed : chain.ServedUpTo x c) {v : Int} {i : Nat}
    (hPublished : ∀ t, 0 ≤ t → t ≤ v → t ∈ flips (x.trace i)) : Arrives w x c i v := by
  have hSpec := List.getElem?_eq_getElem hc
  have hPassed : (x.state i).Passed chain.topology 0 v (x.trace i) := by
    intro t ht
    rcases lt_or_ge t 0 with hNeg | hGe
    · exact .inl hNeg
    · exact .inr (hPublished t hGe ht)
  obtain ⟨j, hij, hle⟩ := hD.arrives (hD.wired.mem hSpec) hServed hPassed
  exact ⟨j, hij, hle, fun hPoller t hLo hHi =>
    hD.observed_of_cursor (x.run j) hSpec (hPoller _ hSpec) hLo (hHi.trans hle)⟩

/-- **Everything published arrives.** In every execution of either disruptor, with
any stages: whatever is published at some moment, and with many producers all
before it as well, comes to every consumer that goes on, if the consumers of the
stages before it go on. Its cursor gets that far, and it is given every sequence
up to there, whatever the producers and the other consumers do. -/
theorem published_arrives (R : RingSize) (R' : MultiRingSize) (chain : BuildChain) (w w' : Wiring)
    (hBuild : chain.build buildUniProducerUnchecked = some w)
    (hBuild' : chain.build buildMultiProducerUnchecked = some w') (factory : Nat → E) :
    (∀ (x : UniExecution R w factory) (c i : Nat), c < w.consumers.length →
      chain.ServedUpTo x c → ∀ v ∈ flips (x.trace i), Arrives w x c i v) ∧
    (∀ (x : MultiExecution R' w' factory) (c i : Nat), c < w'.consumers.length →
      chain.ServedUpTo x c → ∀ v, (∀ t, 0 ≤ t → t ≤ v → t ∈ flips (x.trace i)) →
        Arrives w' x c i v) := by
  constructor
  · intro x c i hc hServed v hv
    have hWired := BuildChain.wired_uni hBuild
    have hInv := UniRun.inv hWired (x.run i)
    refine (UniRun.disruptor hWired factory).arrives_of_published hc hServed fun t hLo hHi => ?_
    rw [hInv.flipped, mem_seqRange] at hv ⊢
    omega
  · intro x c i hc hServed v hPublished
    have hWired := BuildChain.wired_multi hBuild'
    exact (MultiRun.disruptor hWired factory).arrives_of_published hc hServed hPublished

-- ---------------------------------------------------------------------------
-- An execution that comes to its end
-- ---------------------------------------------------------------------------

/-- Where a run ends with its threads done, it is fair to all of them. -/
theorem Served.of_path {s : System P E} {ts : List (Transition (System P E) (Act A) (Event E))}
    (h : Path step ok s₀ ts s) :
    ∃ x : Execution step ok s₀,
      (∀ i ≤ ts.length, x.trace i = (ts.take i).flatMap Transition.events) ∧
        ∀ c, (∀ act, Act.serves c act = true → step s act = none) →
          (∀ t ∈ ts, ∀ limit, t.act = .consumer c (.pollTake limit) → 0 < limit) → Served x c := by
  obtain ⟨x, hTrace, hActs, hEnd⟩ := h.extend
  refine ⟨x, hTrace, fun c hStuck hLimit => ⟨fun i hEnabled => ?_, fun i limit hAct => ?_⟩⟩
  · -- at the end the thread cannot act
    obtain ⟨act, hMine, -, hSome⟩ := hEnabled (max i ts.length) (le_max_left ..)
    rw [(hEnd _ (le_max_right ..)).1, hStuck act hMine] at hSome
    cases hSome
  · by_cases hlt : i < ts.length
    · have hAt := hActs i _ (List.getElem?_eq_getElem hlt)
      rw [hAct] at hAt
      exact hLimit _ (List.getElem_mem hlt) limit (Option.some.inj hAt).symm
    · rw [(hEnd i (by omega)).2] at hAct
      cases hAct

/-- One managed consumer. -/
def oneHandler : BuildChain := .sc (.first .handler .new)

/-- The wiring of `oneHandler`. -/
def oneHandlerWiring (producerBarrier : Barrier) : Wiring where
  consumers := [⟨.handler, producerBarrier⟩]
  consumerHandles := [0]
  consumerBarrier := .uniConsumer 0

/-- Two handles publish one event each and are dropped. Then the handler runs to
its end, and the last handle joins it. -/
def twoServed : List (Act (MultiAct Nat)) :=
  [.producer (.clone 0), call 0 (.publish (· + 1))] ++ ticks 0 5 ++ [.producer (.drop 0)] ++
    [call 1 (.publish (· + 2))] ++ ticks 1 7 ++ [.producer (.drop 1)] ++ ticks 1 2 ++
    List.replicate 12 (.consumer 0 .tick) ++ ticks 1 2

/-- No consumer comes before the only one. -/
theorem oneHandler_first {c : Nat} (h : Relation.ReflTransGen oneHandler.Before c 0) : c = 0 := by
  rcases Relation.ReflTransGen.cases_tail h with hEq | ⟨c', -, hBefore, -⟩
  · exact hEq.symm
  · have hStage : oneHandler.stages[c']?.map (· + 1) = some 0 := hBefore
    obtain ⟨stage, -, hZero⟩ := Option.map_eq_some_iff.mp hStage
    omega

theorem published_arrives_two :
    ∃ x : MultiExecution ring64 (oneHandlerWiring .multiProducer) (fun _ => (0 : Nat)),
      flips (x.trace 19) = [0, 1] ∧ observed 0 (x.trace 19) = [] ∧ oneHandler.ServedUpTo x 0 ∧
        ∃ j, 19 ≤ j ∧ 1 ≤ (x.state j).memory.consumerCursors 0 ∧
          1 ∈ (observed 0 (x.trace j)).map Prod.fst := by
  have hRecord : (record (MultiSystem.step ring64.toRingSize (oneHandlerWiring .multiProducer))
      (MultiSystem.init ring64.toRingSize (oneHandlerWiring .multiProducer) fun _ => 0)
      twoServed).any (fun y =>
        flips ((y.1.take 19).flatMap Transition.events) = [0, 1] ∧
          observed 0 ((y.1.take 19).flatMap Transition.events) = [] ∧ 19 ≤ y.1.length ∧
          y.1.all (fun t => match t.act with | .consumer _ (.pollTake _) => false | _ => true) ∧
          (y.2.consumers 0).isExited) = true := by
    decide
  obtain ⟨ts, s, hPath, hState⟩ := Path.of_schedule
    (by decide : ∀ a ∈ twoServed, MultiAct.InRange a) hRecord
  obtain ⟨hFlips, hObserved, hLength, hActs, hExited⟩ := of_decide_eq_true hState
  obtain ⟨x, hTrace, hServed⟩ := Served.of_path hPath
  have hPc : s.consumers 0 = .exited := by
    cases hPc : s.consumers 0 <;> simp_all [ConsumerPc.isExited]
  have hUpTo : oneHandler.ServedUpTo x 0 := by
    intro c hBefore
    obtain rfl := oneHandler_first hBefore
    refine hServed 0 (fun act hServes => ?_) fun t hMem limit hAct => ?_
    · cases act with
      | producer act => cases hServes
      | consumer c act =>
        obtain ⟨rfl, -⟩ : c = 0 ∧ act.serves = true := by simpa [Act.serves] using hServes
        simp [MultiSystem.step, System.stepConsumer, oneHandlerWiring, consumerStep, hPc]
    · have := List.all_eq_true.mp hActs t hMem
      rw [hAct] at this
      cases this
  have hAt := hTrace 19 hLength
  obtain ⟨-, hMulti⟩ := published_arrives ring4 ring64 oneHandler (oneHandlerWiring .uniProducer)
    (oneHandlerWiring .multiProducer) rfl rfl fun _ => (0 : Nat)
  obtain ⟨j, hj, hCursor, hGiven⟩ := hMulti x 0 19 (by decide) hUpTo 1 fun t hLo hHi => by
    rw [hAt, hFlips]
    obtain rfl | rfl : t = 0 ∨ t = 1 := by omega
    · decide
    · decide
  exact ⟨x, by rw [hAt, hFlips], by rw [hAt, hObserved], hUpTo, j, hj, hCursor,
    hGiven (fun spec hSpec hPoller => by
      obtain rfl : _ = spec := Option.some.inj hSpec
      cases hPoller) 1 (by decide) (le_refl 1)⟩

end Calvera
