import Calvera.Refinement.Disruptor
import Calvera.Refinement.Managed

/-!
# Refinement — the threads of a running disruptor

A managed consumer appears twice: as the loops of the source, run on given
answers and readings, and as the steps of `consumerStep`, which interleave with
everything else. They are the same thread. `threadLog` is what such a thread
does in a recorded run; run on the answers and readings in it, the loop does the
same (`Disruptor.threadLog_prefix`).

`ConsumerPc.rest` is what the loop still has to do from a program counter on;
each step takes its first events off (`ConsumerStep.log`).
-/

namespace Calvera

open Calvera.Lib Calvera.Protocol

variable {E P A : Type} {R : RingSize} {T : Topology Nat} {w : Wiring} {producerBarrier : Barrier}
  {c : Nat}

-- ---------------------------------------------------------------------------
-- The log of a thread
-- ---------------------------------------------------------------------------

/-- The call of the handler of consumer `c`. -/
def Event.handled? (c : Nat) : Event E → Option (ThreadEvent E)
  | .handled consumer sequence event endOfBatch =>
    if consumer = c then some (.handled sequence event endOfBatch) else none
  | _ => none

/-- What a step of the thread of consumer `c` does. -/
def ConsumerPc.log (R : RingSize) (c : Nat) (m : Memory E) (pc : ConsumerPc) (m' : Memory E)
    (pc' : ConsumerPc) (es : List (Event E)) : List (ThreadEvent E) :=
  match pc, pc' with
  | .waitForEvents sequence g, _ =>
    match g.step R m with
    | .inl _ => []
    | .inr answer =>
      if answer < sequence then [.asked sequence answer]
      else [.asked sequence answer, .waited (some answer)]
  | .checkShutdown _, .exited => [.checked m.shutdownAtSequence, .waited none]
  | .checkShutdown sequence, _ => [.checked m.shutdownAtSequence, .spun sequence]
  | .batch _ _, .waitForEvents _ _ => [.stored (m'.consumerCursors c)]
  | .batch _ _, _ => es.filterMap (Event.handled? c)
  | _, _ => []

/-- What the thread of consumer `c` does in a recorded run. -/
def threadLog (R : RingSize) (c : Nat) (ts : List (Transition (System P E) (Act A) (Event E))) :
    List (ThreadEvent E) :=
  ts.flatMap fun t =>
    if t.act.isOf c then
      (t.source.consumers c).log R c t.source.memory t.target.memory (t.target.consumers c) t.events
    else []

/-- What the barrier answered to the thread. -/
def answers (log : List (ThreadEvent E)) : List Int :=
  log.filterMap fun | .asked _ answer => some answer | _ => none

/-- What the thread read from `shutdown_at_sequence`. -/
def shutdowns (log : List (ThreadEvent E)) : List Int :=
  log.filterMap fun | .checked value => some value | _ => none

@[simp] theorem answers_append (log log' : List (ThreadEvent E)) :
    answers (log ++ log') = answers log ++ answers log' := by
  simp [answers]

@[simp] theorem shutdowns_append (log log' : List (ThreadEvent E)) :
    shutdowns (log ++ log') = shutdowns log ++ shutdowns log' := by
  simp [shutdowns]

-- ---------------------------------------------------------------------------
-- The rest of the loop
-- ---------------------------------------------------------------------------

/-- The log of the loop from `sequence` on; it is that of any handler. -/
def loopLog (event : Int → E) (sequence : Int) (answers shutdowns : List Int) :
    List (ThreadEvent E) :=
  (startProcessor.loop (fun _ _ _ _ => ()) event sequence NONE () answers shutdowns).log

/-- What follows a batch from `sequence` to `available`. -/
def batchLog (event : Int → E) (sequence available : Int) (answers shutdowns : List Int) :
    List (ThreadEvent E) :=
  let (handled, sequence, _) :=
    startProcessor.batch (fun _ _ _ _ => ()) event available sequence ()
  handled ++ .stored (sequence - 1) :: loopLog event sequence answers shutdowns

/-- What follows an answer behind `sequence`. -/
def checkLog (event : Int → E) (sequence : Int) (answers : List Int) :
    List Int → List (ThreadEvent E)
  | [] => []
  | value :: shutdowns =>
    if value = sequence then [.checked value, .waited none]
    else .checked value :: .spun sequence :: loopLog event sequence answers shutdowns

theorem batchLog_cons (event : Int → E) {sequence available : Int} (h : sequence ≤ available)
    (answers shutdowns : List Int) :
    batchLog event sequence available answers shutdowns =
      .handled sequence (event sequence) (available == sequence) ::
        batchLog event (sequence + 1) available answers shutdowns := by
  rw [batchLog, startProcessor.batch, if_pos h]
  rfl

theorem batchLog_end (event : Int → E) {sequence available : Int} (h : available < sequence)
    (answers shutdowns : List Int) :
    batchLog event sequence available answers shutdowns =
      .stored (sequence - 1) :: loopLog event sequence answers shutdowns := by
  rw [batchLog, startProcessor.batch, if_neg (Int.not_le.mpr h)]
  rfl

theorem loopLog_some (event : Int → E) {sequence available : Int}
    {as ss as' ss' : List Int} {log : List (ThreadEvent E)}
    (h : waitForEvents sequence as ss = (log, .some available as' ss')) :
    loopLog event sequence as ss = log ++ batchLog event sequence available as' ss' := by
  rw [loopLog, startProcessor.loop_some _ event h rfl rfl]
  have hRest : ∀ sequence cursor, (startProcessor.loop (fun _ _ _ _ => ()) event sequence cursor ()
      as' ss').log = loopLog event sequence as' ss' := fun sequence cursor =>
    startProcessor.loop_log _ _ _ _ _ _ _ _ _ _
  simp only [batchLog, hRest, List.append_assoc]

/-- The loop asks its barrier first. -/
theorem loopLog_cons (event : Int → E) (sequence answer : Int) (answers shutdowns : List Int) :
    loopLog event sequence (answer :: answers) shutdowns =
      if answer < sequence then .asked sequence answer :: checkLog event sequence answers shutdowns
      else .asked sequence answer :: .waited (some answer) ::
        batchLog event sequence answer answers shutdowns := by
  by_cases hlt : answer < sequence
  · rw [if_pos hlt]
    cases shutdowns with
    | nil =>
      rw [loopLog, startProcessor.loop_stop _ event (by rw [waitForEvents, if_pos hlt]) (.inl rfl)]
      rfl
    | cons value shutdowns =>
      rw [checkLog]
      by_cases hEnd : value = sequence
      · rw [if_pos hEnd, loopLog, startProcessor.loop_stop _ event
          (by rw [waitForEvents, if_pos hlt, if_pos hEnd]) (.inr rfl)]
      · rw [if_neg hEnd]
        cases hWait : waitForEvents (E := E) sequence answers shutdowns with
        | mk log result =>
          have hMore : waitForEvents sequence (answer :: answers) (value :: shutdowns) =
              (.asked sequence answer :: .checked value :: .spun sequence :: log, result) := by
            rw [waitForEvents, if_pos hlt, if_neg hEnd, hWait]
          cases result with
          | some available answers' shutdowns' =>
            rw [loopLog_some event hMore, loopLog_some event hWait]
            rfl
          | waiting =>
            rw [loopLog, loopLog, startProcessor.loop_stop _ event hMore (.inl rfl),
              startProcessor.loop_stop _ event hWait (.inl rfl)]
          | none =>
            rw [loopLog, loopLog, startProcessor.loop_stop _ event hMore (.inr rfl),
              startProcessor.loop_stop _ event hWait (.inr rfl)]
  · rw [if_neg hlt]
    have hWait : waitForEvents (E := E) sequence (answer :: answers) shutdowns =
        ([.asked sequence answer, .waited (some answer)], .some answer answers shutdowns) := by
      cases shutdowns <;> rw [waitForEvents, if_neg hlt]
    rw [loopLog_some event hWait]
    rfl

/-- What the loop still has to do, given what it will be answered. -/
def ConsumerPc.rest (event : Int → E) (answers shutdowns : List Int) :
    ConsumerPc → List (ThreadEvent E)
  | .waitForEvents sequence _ => loopLog event sequence answers shutdowns
  | .checkShutdown sequence => checkLog event sequence answers shutdowns
  | .batch sequence available => batchLog event sequence available answers shutdowns
  | .handler sequence available => batchLog event (sequence + 1) available answers shutdowns
  | _ => []

/-- **A step of a thread is the next thing its loop does.** -/
theorem ConsumerStep.log {b : Barrier} {m m' : Memory E} {pc pc' : ConsumerPc} {es : List (Event E)}
    (hStep : ConsumerStep R b c m pc m' pc' es) (hThread : pc.ofPoller = false) {event : Int → E}
    (hEvent : ∀ q e endOfBatch, .handled c q e endOfBatch ∈ es → e = event q)
    (as ss : List Int) :
    pc.rest event (answers (pc.log R c m m' pc' es) ++ as)
        (shutdowns (pc.log R c m m' pc' es) ++ ss) =
      pc.log R c m m' pc' es ++ pc'.rest event as ss := by
  cases hStep with
  | waitRead hg => simp [ConsumerPc.log, hg, ConsumerPc.rest, answers, shutdowns]
  | waitMiss hg hlt =>
    simp [ConsumerPc.log, hg, hlt, ConsumerPc.rest, answers, shutdowns, loopLog_cons]
  | waitHit hg hle =>
    simp [ConsumerPc.log, hg, Int.not_lt.mpr hle, ConsumerPc.rest, answers, shutdowns, loopLog_cons]
  | exit hEq => simp [ConsumerPc.log, ConsumerPc.rest, shutdowns, checkLog, hEq]
  | retry hne => simp [ConsumerPc.log, ConsumerPc.rest, answers, shutdowns, checkLog, hne]
  | @handle q v hle =>
    have hRead := hEvent q _ _ (List.mem_singleton_self _)
    simp [ConsumerPc.log, ConsumerPc.rest, answers, shutdowns, Event.handled?, batchLog_cons event hle,
      hRead]
  | handled => simp [ConsumerPc.log, ConsumerPc.rest, answers, shutdowns]
  | @store q v hlt =>
    simp [ConsumerPc.log, ConsumerPc.rest, answers, shutdowns, batchLog_end event hlt,
      Memory.storeCursor]
  | _ => cases hThread

-- ---------------------------------------------------------------------------
-- Runs
-- ---------------------------------------------------------------------------

namespace Disruptor

variable {step : System P E → Act A → Option (System P E × List (Event E))} {ok : Act A → Prop}
  {s₀ s : System P E} {spec : ConsumerSpec}
  {ts : List (Transition (System P E) (Act A) (Event E))}

/-- What the handler of a managed consumer is given depends on the sequence only. -/
theorem exists_event (hD : Disruptor R T w producerBarrier step ok s₀) {tr : List (Event E)}
    (hRun : Run step ok s₀ tr s) (hSpec : w.consumers[c]? = some spec)
    (hKind : spec.kind ≠ .poller) :
    ∃ event : Int → E, ∀ q e endOfBatch, .handled c q e endOfBatch ∈ tr → e = event q := by
  have hOnce := hD.observed hRun (hD.wired.mem hSpec) (hD.managed hRun hSpec hKind).2
  have hNodup : ((Calvera.observed c tr).map Prod.fst).Nodup := hOnce ▸ nodup_seqRange _ _
  have hAll : ∀ q, ∃ v : E, ∀ e endOfBatch, .handled c q e endOfBatch ∈ tr → e = v := by
    intro q
    by_cases hGiven : ∃ v endOfBatch, Event.handled c q v endOfBatch ∈ tr
    · obtain ⟨v, endOfBatch, hGiven⟩ := hGiven
      have hSeen : ∀ {e endOfBatch}, .handled c q e endOfBatch ∈ tr →
          (q, e) ∈ Calvera.observed c tr := fun hMem =>
        List.mem_filterMap.mpr ⟨_, hMem, by simp [Event.observed?]⟩
      refine ⟨v, fun e endOfBatch hMem => ?_⟩
      have := List.inj_on_of_nodup_map hNodup (hSeen hMem) (hSeen hGiven) rfl
      exact (Prod.mk.inj this).2
    · exact ⟨s.memory.slots 0, fun e endOfBatch hMem => (hGiven ⟨e, endOfBatch, hMem⟩).elim⟩
  choose event hEvent using hAll
  exact ⟨event, hEvent⟩

/-- The loop, given what the thread was answered, has done the same so far. -/
theorem threadLog_rest (hD : Disruptor R T w producerBarrier step ok s₀)
    (hPath : Path step ok s₀ ts s) (hSpec : w.consumers[c]? = some spec)
    (hKind : spec.kind ≠ .poller) {event : Int → E}
    (hEvent : ∀ q e endOfBatch, .handled c q e endOfBatch ∈ ts.flatMap Transition.events →
      e = event q) (as ss : List Int) :
    loopLog event 0 (answers (threadLog R c ts) ++ as) (shutdowns (threadLog R c ts) ++ ss) =
      threadLog R c ts ++ (s.consumers c).rest event as ss := by
  induction hPath generalizing as ss with
  | nil =>
    obtain ⟨factory, producer, rfl⟩ := hD.start
    rw [show (System.init w factory producer : System P E).consumers c = spec.start by
      simp only [System.init, hSpec], ConsumerSpec.start]
    split
    · exact (hKind ‹_›).elim
    · rfl
  | @snoc ts s s' act es hPath hOk hs ih =>
    have hOld := ih fun q e endOfBatch hMem => hEvent q e endOfBatch (by
      rw [List.flatMap_append]
      exact List.mem_append_left _ hMem)
    have hLog : threadLog R c (ts ++ [⟨s, act, es, s'⟩]) = threadLog R c ts ++
        if act.isOf c then (s.consumers c).log R c s.memory s'.memory (s'.consumers c) es else [] := by
      rw [threadLog, List.flatMap_append, List.flatMap_singleton]
      rfl
    rw [hLog]
    cases hD.move hs with
    | @consumer c' act spec' memory pc es hSpec' hStep =>
      rcases eq_or_ne c' c with rfl | hne
      · have hNew := hStep.log (hD.managed hPath.run hSpec hKind).1
          (fun q e endOfBatch hMem => hEvent q e endOfBatch (by
            rw [List.flatMap_append, List.flatMap_singleton]
            exact List.mem_append_right _ hMem)) as ss
        simp only [Act.isOf, beq_self_eq_true, if_true, Function.update_self, answers_append,
          shutdowns_append, List.append_assoc]
        rw [hOld, hNew]
      · simp only [Act.isOf, beq_eq_false_iff_ne.mpr hne, Bool.false_eq_true, if_false,
          List.append_nil, Function.update_of_ne hne.symm]
        exact hOld as ss
    | producer hConsumers _ _ =>
      simp only [Act.isOf, Bool.false_eq_true, if_false, List.append_nil, hConsumers]
      exact hOld as ss

/-- **A thread of a running disruptor runs its loop**: on the answers and
readings it was given, the loop does what the thread has done, and then goes on. -/
theorem threadLog_prefix (hD : Disruptor R T w producerBarrier step ok s₀)
    (hPath : Path step ok s₀ ts s) (hSpec : w.consumers[c]? = some spec)
    (hKind : spec.kind ≠ .poller) :
    ∃ event : Int → E, threadLog R c ts <+:
      loopLog event 0 (answers (threadLog R c ts)) (shutdowns (threadLog R c ts)) := by
  obtain ⟨event, hEvent⟩ := hD.exists_event hPath.run hSpec hKind
  have hRest := hD.threadLog_rest hPath hSpec hKind hEvent [] []
  simp only [List.append_nil] at hRest
  exact ⟨event, hRest ▸ List.prefix_append _ _⟩

end Disruptor

end Calvera
