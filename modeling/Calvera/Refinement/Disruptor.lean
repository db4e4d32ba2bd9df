import Calvera.Refinement.Delivery
import Calvera.Refinement.Shutdown

/-!
# Refinement — either disruptor, seen by its consumers

Consumers do not depend on how many producers there are. `Disruptor` collects
what they rely on: their steps are those of `stepConsumer`, the pipeline is
consistent, and `shutdown_at_sequence`, once stored, stays and is one more than
the highest claim. Both systems provide it (`UniRun.disruptor`,
`MultiRun.disruptor`).

* `Disruptor.observed` — a consumer has observed the sequences before its next one.
* `Disruptor.ended`    — a consumer that was told to stop is at the end.
* `Disruptor.wait`, `Disruptor.poll` — a consumer at the end is told to stop.
-/

namespace Calvera

open Calvera.Lib Calvera.Protocol

variable {E P A : Type} {R : RingSize} {T : Topology Nat} {w : Wiring} {producerBarrier : Barrier}
  {c : Nat}

/-- Consumer `c` was told that nothing more will come. -/
def Ended (c : Nat) (tr : List (Event E)) : Prop :=
  .waitEnded c ∈ tr ∨ .pollFailed c .shutdown ∈ tr

/-- `shutdown_at_sequence` is stored, and consumer `c` is done with all before it. -/
def System.Drained (c : Nat) (s : System P E) : Prop :=
  s.memory.shutdownAtSequence ≠ NONE ∧
    s.memory.consumerCursors c + 1 = s.memory.shutdownAtSequence

/-- The thread is inside `wait_for_events`. -/
def ConsumerPc.waits : ConsumerPc → Bool
  | .waitForEvents _ _ | .checkShutdown _ => true
  | _ => false

/-- How many steps of its own a consumer takes at most before it looks at
`shutdown_at_sequence`, if nothing beyond `last` is published. -/
def ConsumerPc.waitRank (last : Int) : ConsumerPc → Nat
  | .waitForEvents _ g => g.remaining last + 1
  | _ => 0

/-- What a consumer relies on. -/
structure Disruptor (R : RingSize) (T : Topology Nat) (w : Wiring) (producerBarrier : Barrier)
    (step : System P E → Act A → Option (System P E × List (Event E))) (ok : Act A → Prop)
    (s₀ : System P E) : Prop where
  wired : Wired T producerBarrier w
  start : ∃ factory producer, s₀ = System.init w factory producer
  ok_consumer : ∀ c act, ok (.consumer c act)
  step_consumer : ∀ s c act, step s (.consumer c act) = s.stepConsumer R w c act
  move : ∀ {s act s' es}, step s act = some (s', es) → SystemMove R w s act s' es
  consistent : ∀ {tr s}, Run step ok s₀ tr s →
    ∃ claimed, s.Consistent R T producerBarrier claimed (publishedBy tr) ∧
      (s.memory.shutdownAtSequence ≠ NONE → s.memory.shutdownAtSequence = claimed + 1)
  keep : ∀ {tr s act s' es}, Run step ok s₀ tr s → step s act = some (s', es) →
    s.memory.shutdownAtSequence ≠ NONE →
      s'.memory.shutdownAtSequence = s.memory.shutdownAtSequence

theorem UniRun.disruptor (hWired : Wired T .uniProducer w) (factory : Nat → E) :
    Disruptor R T w .uniProducer (UniSystem.step R w) UniAct.InRange
      (UniSystem.init R w factory) where
  wired := hWired
  start := ⟨factory, _, rfl⟩
  ok_consumer _ _ := trivial
  step_consumer _ _ _ := rfl
  move hs := (uniStep_cases hs).move
  consistent hRun := by
    have hInv := UniRun.inv hWired hRun
    refine ⟨_, hInv.consistent, fun hStored => ?_⟩
    obtain ⟨hPc, hEq⟩ := UniRun.closed hWired hRun hStored
    rw [hInv.claimed_eq (UniPc.holds_of_not_live (UniPc.live_of_stored hPc))]
    exact hEq
  keep hRun hs hStored := by
    by_contra hne
    exact hStored (UniRun.store hRun hs hne).1

theorem MultiRun.disruptor {R : MultiRingSize} (hWired : Wired T .multiProducer w)
    (factory : Nat → E) :
    Disruptor R.toRingSize T w .multiProducer (MultiSystem.step R.toRingSize w) MultiAct.InRange
      (MultiSystem.init R.toRingSize w factory) where
  wired := hWired
  start := ⟨factory, _, rfl⟩
  ok_consumer _ _ := trivial
  step_consumer _ _ _ := rfl
  move hs := (multiStep_cases hs).move
  consistent hRun :=
    ⟨_, (MultiRun.inv hWired hRun).consistent, fun hStored =>
      (MultiRun.closed hWired hRun hStored).2⟩
  keep hRun hs hStored := by
    by_contra hne
    exact hStored (MultiRun.store hWired hRun hs hne).1

-- ---------------------------------------------------------------------------
-- Steps of one consumer
-- ---------------------------------------------------------------------------

section Steps

variable {b : Barrier} {m m' : Memory E} {pc pc' : ConsumerPc} {es : List (Event E)} {a : State Nat}

/-- A consumer is told to stop at the sequence in `shutdown_at_sequence`. -/
theorem ConsumerStep.ended (hStep : ConsumerStep R b c m pc m' pc' es)
    (hOk : pc.Ok R T producerBarrier a c) (hCursor : a.cursor c = m.consumerCursors c) {c' : Nat}
    (hEnded : Ended c' es) : c' = c ∧ m.consumerCursors c + 1 = m.shutdownAtSequence := by
  cases hStep with
  | exit hEq =>
    obtain rfl : c' = c := by simpa [Ended] using hEnded
    have hOk' : _ = a.cursor c' + 1 := hOk
    exact ⟨rfl, by rw [← hCursor, ← hOk', hEq]⟩
  | pollShutdown hEq =>
    obtain rfl : c' = c := by simpa [Ended] using hEnded
    have hOk' : _ = a.cursor c' := hOk
    exact ⟨rfl, by rw [← hCursor, ← hOk', hEq]⟩
  | _ => simp [Ended] at hEnded

/-- **Inside `wait_for_events` at the end**: each step comes closer to the look
at `shutdown_at_sequence`, which ends the wait. -/
theorem ConsumerStep.wait (hStep : ConsumerStep R b c m pc m' pc' es)
    (hOk : pc.Ok R T producerBarrier a c) (last : Int) (hLast : ∀ s ∈ a.published, s ≤ last)
    (hAnswer : ∀ q g v, pc = .waitForEvents q g → g.step R m = .inr v → v ≤ last)
    (hCursor : a.cursor c = last) (hStored : m.shutdownAtSequence = last + 1)
    (hWaits : pc.waits = true) :
    es = [.waitEnded c] ∨
      m' = m ∧ pc'.waits = true ∧ pc'.waitRank last + 1 ≤ pc.waitRank last := by
  cases hStep with
  | waitRead hg => exact .inr ⟨rfl, rfl, Nat.succ_le_succ (hOk.2.remaining_lt hLast hg)⟩
  | waitMiss hg hlt =>
    refine .inr ⟨rfl, rfl, ?_⟩
    simp only [ConsumerPc.waitRank]
    omega
  | waitHit hg hle =>
    -- nothing beyond the cursor is ever available
    have := hAnswer _ _ _ rfl hg
    have hNext : _ = a.cursor c + 1 := hOk.1
    omega
  | exit hEq => exact .inl rfl
  | retry hne =>
    have hNext : _ = a.cursor c + 1 := hOk
    exact (hne (by omega)).elim
  | _ => cases hWaits

end Steps

/-- What the barrier answers to a call for the next sequence of a consumer is claimed. -/
theorem System.Consistent.sound_le {s : System P E} {claimed : Int} {published : Set Int}
    (h : s.Consistent R T producerBarrier claimed published) (hMem : c ∈ T.members) {g : GetAfter}
    (hSound : g.Sound R T producerBarrier (s.pipeline claimed published) (T.stage c)
      (s.memory.consumerCursors c + 1)) {v : Int} (hg : g.step R s.memory = .inr v) :
    v ≤ claimed := by
  have hLap : Lap R.size published (s.memory.consumerCursors c + 1 - 1) := by
    rw [Int.add_sub_cancel]
    exact h.lap hMem
  have hPassed := (hSound.step h.represents fun _ => hLap).2 v hg
  have hStage := T.stage_le c hMem
  exact h.inv.published_le v (h.inv.passed_le (Nat.zero_le _) (by omega) hPassed v (le_refl v))

/-- What the barrier answers to a consumer that waits is claimed. -/
theorem System.Consistent.answer_le {s : System P E} {claimed : Int} {published : Set Int}
    (h : s.Consistent R T producerBarrier claimed published) (hMem : c ∈ T.members) (q : Int)
    (g : GetAfter) (v : Int) (hPc : s.consumers c = .waitForEvents q g)
    (hg : g.step R s.memory = .inr v) : v ≤ claimed := by
  have hOk := h.consumers c hMem
  rw [hPc] at hOk
  obtain ⟨rfl, hSound⟩ := hOk
  exact h.sound_le hMem hSound hg

/-- What the barrier answers to a poller is claimed. -/
theorem System.Consistent.polled_le {s : System P E} {claimed : Int} {published : Set Int}
    (h : s.Consistent R T producerBarrier claimed published) (hMem : c ∈ T.members) {at_ : Int}
    {limit : Nat} {g : GetAfter} {v : Int} (hPc : s.consumers c = .getAvailable at_ limit g)
    (hg : g.step R s.memory = .inr v) : v ≤ claimed := by
  have hOk := h.consumers c hMem
  rw [hPc] at hOk
  obtain ⟨rfl, hSound⟩ := hOk
  exact h.sound_le hMem hSound hg

-- ---------------------------------------------------------------------------
-- Runs
-- ---------------------------------------------------------------------------

theorem stream_fst (value : Int → E) (next : Int) :
    (stream value next).map Prod.fst = seqRange 0 (next - 1) := by
  rw [stream_eq, List.map_map]
  exact List.map_id _

namespace Disruptor

variable {step : System P E → Act A → Option (System P E × List (Event E))} {ok : Act A → Prop}
  {s₀ s s' : System P E} {tr es : List (Event E)} {act : Act A} {spec : ConsumerSpec}

/-- A consumer that is done with everything stays so. -/
theorem drained_step (hD : Disruptor R T w producerBarrier step ok s₀) (hRun : Run step ok s₀ tr s)
    (hOk : ok act) (hs : step s act = some (s', es)) (hMem : c ∈ T.members) (h : s.Drained c) :
    s'.Drained c ∧ s'.memory.shutdownAtSequence = s.memory.shutdownAtSequence := by
  obtain ⟨hStored, hEnd⟩ := h
  have hKeep := hD.keep hRun hs hStored
  obtain ⟨claimed, hC, -⟩ := hD.consistent hRun
  obtain ⟨claimed', hC', hClosed'⟩ := hD.consistent (hRun.snoc hOk hs)
  have hStored' : s'.memory.shutdownAtSequence ≠ NONE := hKeep ▸ hStored
  have hLast := hClosed' hStored'
  have hMono := hC.cursor_mono hD.wired (hD.move hs) c hMem
  have hLe : s'.memory.consumerCursors c ≤ claimed' := hC'.inv.cursor_le_claimed hMem
  exact ⟨⟨hStored', by omega⟩, hKeep⟩

/-- **A consumer that was told to stop is done with everything.** -/
theorem ended (hD : Disruptor R T w producerBarrier step ok s₀) (hRun : Run step ok s₀ tr s)
    (hMem : c ∈ T.members) (hEnded : Ended c tr) : s.Drained c := by
  refine Run.induct (P := fun tr s => Ended c tr → s.Drained c) ?_ ?_ hRun hEnded
  · intro h
    simp [Ended] at h
  · intro tr s act s' es hRun ih hOk hs hEnded
    refine (hD.drained_step hRun hOk hs hMem ?_).1
    have hSplit : Ended c tr ∨ Ended c es := by
      simp only [Ended, List.mem_append] at hEnded ⊢
      tauto
    rcases hSplit with hOld | hNew
    · exact ih hOld
    · obtain ⟨claimed, hC, -⟩ := hD.consistent hRun
      cases hD.move hs with
      | @consumer c' act spec memory pc es hSpec hStep =>
        have hMem' := hD.wired.mem hSpec
        obtain ⟨rfl, hEnd⟩ := hStep.ended (hC.consumers c' hMem') rfl hNew
        have hGe : -1 ≤ s.memory.consumerCursors c := hC.inv.cursor_ge c hMem
        refine ⟨?_, hEnd⟩
        rw [← hEnd, NONE]
        omega
      | producer _ _ hOf =>
        rcases hNew with hNew | hNew
        · exact (hOf _ hNew trivial).elim
        · exact (hOf _ hNew trivial).elim

/-- **What a consumer has observed** are the sequences from `0` up to its next one. -/
theorem observed (hD : Disruptor R T w producerBarrier step ok s₀) (hRun : Run step ok s₀ tr s)
    (hMem : c ∈ T.members) (hExhausts : Exhausts c tr) :
    (Calvera.observed c tr).map Prod.fst = seqRange 0 (s.nextSequence c - 1) := by
  refine Run.induct (P := fun tr s => Exhausts c tr → (Calvera.observed c tr).map Prod.fst =
    seqRange 0 (s.nextSequence c - 1)) ?_ ?_ hRun hExhausts
  · intro _
    obtain ⟨factory, producer, rfl⟩ := hD.start
    rw [System.init_nextSequence]
    rfl
  · intro tr s act s' es hRun ih _ hs hExhausts
    obtain ⟨claimed, hC, -⟩ := hD.consistent hRun
    -- only the sequences matter here, so any reading of the slots will do
    have hMore := (hD.move hs).observed hC hMem hExhausts.append.2 fun t _ _ => rfl
    rw [observed_append, List.map_append, ih hExhausts.append.1, ← stream_fst, ← List.map_append,
      hMore, stream_fst]

/-- A managed consumer is no poller, and drops no guards. -/
theorem managed (hD : Disruptor R T w producerBarrier step ok s₀) (hRun : Run step ok s₀ tr s)
    (hSpec : w.consumers[c]? = some spec) (hKind : spec.kind ≠ .poller) :
    (s.consumers c).ofPoller = false ∧ Exhausts c tr := by
  refine Run.induct (P := fun tr s => (s.consumers c).ofPoller = false ∧ Exhausts c tr) ?_
    (fun _ ih _ hs => (hD.move hs).managed ih) hRun
  obtain ⟨factory, producer, rfl⟩ := hD.start
  exact System.init_managed hSpec hKind

/-- A poller stays one. -/
theorem poller (hD : Disruptor R T w producerBarrier step ok s₀) (hRun : Run step ok s₀ tr s)
    (hSpec : w.consumers[c]? = some spec) (hKind : spec.kind = .poller) :
    (s.consumers c).ofPoller = true := by
  refine Run.induct (P := fun _ s => (s.consumers c).ofPoller = true) ?_
    (fun {tr s act s' es} _ ih _ hs => ?_) hRun
  · obtain ⟨factory, producer, rfl⟩ := hD.start
    simp only [System.init, hSpec, spec.start_ofPoller, hKind]
    rfl
  · cases hD.move hs with
    | @consumer c' act spec memory pc es hSpec hStep =>
      rcases eq_or_ne c' c with rfl | hne
      · simpa using hStep.ofPoller.trans ih
      · simpa [hne.symm] using ih
    | producer hConsumers _ _ => exact hConsumers ▸ ih

/-- A thread that has ended was told to stop. -/
theorem exited (hD : Disruptor R T w producerBarrier step ok s₀) (hRun : Run step ok s₀ tr s)
    (hSpec : w.consumers[c]? = some spec) (hPc : s.consumers c = .exited) : .waitEnded c ∈ tr := by
  refine Run.induct (P := fun tr s => s.consumers c = .exited → .waitEnded c ∈ tr) ?_ ?_ hRun hPc
  · intro h
    obtain ⟨factory, producer, rfl⟩ := hD.start
    simp only [System.init, hSpec, ConsumerSpec.start] at h
    split at h <;> cases h
  · intro tr s act s' es _ ih _ hs h
    cases hD.move hs with
    | @consumer c' act spec memory pc es hSpec hStep =>
      rcases eq_or_ne c' c with rfl | hne
      · obtain rfl : pc = .exited := by simpa using h
        generalize s.consumers c' = pc at hStep
        cases hStep
        exact List.mem_append_right _ (List.mem_singleton_self _)
      · exact List.mem_append_left _ (ih (by simpa [hne.symm] using h))
    | producer hConsumers _ _ => exact List.mem_append_left _ (ih (hConsumers ▸ h))

/-- A consumer whose guards, if it has any, are iterated to the end. -/
theorem exhausts (hD : Disruptor R T w producerBarrier step ok s₀) (hRun : Run step ok s₀ tr s)
    (hSpec : w.consumers[c]? = some spec) (hPoller : spec.kind = .poller → Exhausts c tr) :
    Exhausts c tr := by
  by_cases hKind : spec.kind = .poller
  · exact hPoller hKind
  · exact (hD.managed hRun hSpec hKind).2

/-- A consumer that is done with everything has nothing in hand. -/
theorem next_of_drained (hD : Disruptor R T w producerBarrier step ok s₀)
    (hRun : Run step ok s₀ tr s) (hMem : c ∈ T.members) (h : s.Drained c) :
    s.nextSequence c = s.memory.consumerCursors c + 1 := by
  obtain ⟨hStored, hEnd⟩ := h
  obtain ⟨claimed, hC, hClosed⟩ := hD.consistent hRun
  have hLast := hClosed hStored
  have hNext := hC.next_bounds hMem
  have hGranted : (s.consumers c).granted (s.memory.consumerCursors c) ≤ claimed :=
    hC.inv.granted_le_claimed hMem
  omega

/-- A managed consumer that is done with everything waits, unless it has ended. -/
theorem waits_of_drained (hD : Disruptor R T w producerBarrier step ok s₀)
    (hRun : Run step ok s₀ tr s) (hSpec : w.consumers[c]? = some spec) (hKind : spec.kind ≠ .poller)
    (h : s.Drained c) : (s.consumers c).waits = true ∨ s.consumers c = .exited := by
  obtain ⟨hStored, hEnd⟩ := h
  obtain ⟨claimed, hC, hClosed⟩ := hD.consistent hRun
  have hLast := hClosed hStored
  have hMem := hD.wired.mem hSpec
  have hManaged := (hD.managed hRun hSpec hKind).1
  have hOk := hC.consumers c hMem
  have hGranted : (s.consumers c).granted (s.memory.consumerCursors c) ≤ claimed :=
    hC.inv.granted_le_claimed hMem
  cases hPc : s.consumers c <;> rw [hPc] at hManaged hOk hGranted
  case waitForEvents q g => exact .inl rfl
  case checkShutdown q => exact .inl rfl
  case exited => exact .inr rfl
  case batch q v =>
    have hBehind : s.memory.consumerCursors c < v := hOk.2.2
    simp only [ConsumerPc.granted] at hGranted
    omega
  case handler q v =>
    obtain ⟨hlo, hhi⟩ := hOk
    have hBehind : s.memory.consumerCursors c < q := hlo
    simp only [ConsumerPc.granted] at hGranted
    omega
  all_goals cases hManaged

/-- A thread that has not ended can always take its next step. -/
theorem tick_isSome (hSpec : w.consumers[c]? = some spec)
    (hThread : (s.consumers c).ofPoller = false) (hGoes : s.consumers c ≠ .exited) :
    (s.stepConsumer R w c .tick).isSome = true := by
  have hStep : (consumerStep R spec.dependentBarrier c s.memory (s.consumers c) .tick).isSome =
      true := by
    cases hPc : s.consumers c <;> rw [hPc] at hThread hGoes
    case waitForEvents q g =>
      rw [consumerStep]
      split
      · rfl
      · split <;> rfl
    case checkShutdown q =>
      rw [consumerStep]
      split <;> rfl
    case batch q v =>
      rw [consumerStep]
      split <;> rfl
    case handler q v => rfl
    case exited => exact (hGoes rfl).elim
    all_goals cases hThread
  obtain ⟨x, hx⟩ := Option.isSome_iff_exists.mp hStep
  simp [System.stepConsumer, hSpec, hx]

/-- **A wait at the end is told to stop**, within as many of its own steps as
its rank says, plus one, whatever the others do in between. -/
theorem wait (hD : Disruptor R T w producerBarrier step ok s₀) (hRun : Run step ok s₀ tr s)
    (hMem : c ∈ T.members) (hDrained : s.Drained c) (hPc : (s.consumers c).waits = true)
    {ts : List (Transition (System P E) (Act A) (Event E))} (hPath : Path step ok s ts s')
    (hEnough : (s.consumers c).waitRank (s.memory.consumerCursors c) <
      ts.countP fun t => t.act.isOf c) : .waitEnded c ∈ ts.flatMap Transition.events := by
  have hEnds : ∃ e ∈ ts.flatMap Transition.events, e = .waitEnded c := by
    refine Path.within
      (fun s => (∃ tr, Run step ok s₀ tr s) ∧ s.Drained c ∧ (s.consumers c).waits = true)
      (fun s => (s.consumers c).waitRank (s.memory.consumerCursors c)) (Act.isOf c) _
      (fun {s act s' es} hP hOk hs => ?_) hPath ⟨⟨tr, hRun⟩, hDrained, hPc⟩ hEnough
    obtain ⟨⟨tr, hRun⟩, hDrained, hPc⟩ := hP
    obtain ⟨hDrained', hKeep⟩ := hD.drained_step hRun hOk hs hMem hDrained
    have hCursor : s'.memory.consumerCursors c = s.memory.consumerCursors c := by
      have := hDrained.2
      have := hDrained'.2
      omega
    have hRun' : ∃ tr, Run step ok s₀ tr s' := ⟨_, hRun.snoc hOk hs⟩
    obtain ⟨claimed, hC, hClosed⟩ := hD.consistent hRun
    have hLast := hClosed hDrained.1
    obtain rfl : claimed = s.memory.consumerCursors c := by
      have := hDrained.2
      omega
    cases hD.move hs with
    | @consumer c' act spec memory pc es hSpec hStep =>
      rcases eq_or_ne c' c with rfl | hne
      · -- its own step
        rcases hStep.wait (hC.consumers c' hMem) (s.memory.consumerCursors c') hC.inv.published_le
          (hC.answer_le hMem) rfl hLast hPc with rfl | ⟨rfl, hWaits, hLess⟩
        · exact .inl ⟨_, List.mem_singleton_self _, rfl⟩
        · refine .inr ⟨⟨hRun', hDrained', by simpa using hWaits⟩, ?_⟩
          simpa [Act.isOf] using hLess
      · refine .inr ⟨⟨hRun', hDrained', by simpa [hne.symm] using hPc⟩, ?_⟩
        rw [hCursor]
        simp [Act.isOf, hne, hne.symm]
    | producer hConsumers hCursors _ =>
      refine .inr ⟨⟨hRun', hDrained', by rw [hConsumers]; exact hPc⟩, ?_⟩
      rw [hCursor, hConsumers]
      simp [Act.isOf]
  obtain ⟨_, hIn, rfl⟩ := hEnds
  exact hIn

/-- A poller between calls can poll. -/
theorem poll_start (hSpec : w.consumers[c]? = some spec) {last : Option EPolling}
    (hPc : s.consumers c = .idle last) {call : ConsumerAct}
    (hCall : call = .poll ∨ ∃ limit, call = .pollTake limit) :
    ∃ limit, s.stepConsumer R w c call = some
      ({ s with
        consumers := Function.update s.consumers c
          (.readShutdown (s.memory.consumerCursors c) limit) }, []) := by
  rcases hCall with rfl | ⟨limit, rfl⟩
  · exact ⟨u64Max, by simp [System.stepConsumer, hSpec, hPc, consumerStep]⟩
  · exact ⟨limit, by simp [System.stepConsumer, hSpec, hPc, consumerStep]⟩

/-- **A poll at the end returns `Err(Shutdown)`** in its next step, whatever the
others do before. -/
theorem poll (hD : Disruptor R T w producerBarrier step ok s₀) (hRun : Run step ok s₀ tr s)
    (hMem : c ∈ T.members) (hDrained : s.Drained c)
    (hPc : ∃ limit, s.consumers c = .readShutdown (s.memory.consumerCursors c) limit)
    {ts : List (Transition (System P E) (Act A) (Event E))} (hPath : Path step ok s ts s')
    (hEnough : 0 < ts.countP fun t => t.act.isOf c) :
    .pollFailed c .shutdown ∈ ts.flatMap Transition.events := by
  have hEnds : ∃ e ∈ ts.flatMap Transition.events, e = .pollFailed c .shutdown := by
    refine Path.within
      (fun s => (∃ tr, Run step ok s₀ tr s) ∧ s.Drained c ∧
        ∃ limit, s.consumers c = .readShutdown (s.memory.consumerCursors c) limit)
      (fun _ => 0) (Act.isOf c) _ (fun {s act s' es} hP hOk hs => ?_) hPath
      ⟨⟨tr, hRun⟩, hDrained, hPc⟩ hEnough
    obtain ⟨⟨tr, hRun⟩, hDrained, limit, hPc⟩ := hP
    obtain ⟨hDrained', hKeep⟩ := hD.drained_step hRun hOk hs hMem hDrained
    have hRun' : ∃ tr, Run step ok s₀ tr s' := ⟨_, hRun.snoc hOk hs⟩
    cases hD.move hs with
    | @consumer c' act spec memory pc es hSpec hStep =>
      rcases eq_or_ne c' c with rfl | hne
      · rw [hPc] at hStep
        cases hStep with
        | pollShutdown hEq => exact .inl ⟨_, List.mem_singleton_self _, rfl⟩
        | pollOpen hne => exact (hne hDrained.2).elim
      · refine .inr ⟨⟨hRun', hDrained', limit, ?_⟩, ?_⟩
        · simpa [hne.symm, hStep.cursor_ne hne.symm] using hPc
        · simp [Act.isOf, hne]
    | producer hConsumers hCursors _ =>
      refine .inr ⟨⟨hRun', hDrained', limit, ?_⟩, ?_⟩
      · rw [hConsumers, hCursors]
        exact hPc
      · simp [Act.isOf]
  obtain ⟨_, hIn, rfl⟩ := hEnds
  exact hIn

end Disruptor

end Calvera
