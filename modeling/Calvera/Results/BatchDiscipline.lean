import Calvera.Refinement.Threads
import Calvera.Results.SlotExclusion

/-!
# Results — batch discipline

The two loops of managed consumers are written out twice in the source. Both
take the stream batch by batch, whatever their barrier answers and whenever the
shutdown value appears, so a handler may buffer within a batch.

* `batch_discipline` — for both loops on any answers and readings, with the
  state threaded through the calls; and for every managed consumer of either
  disruptor, which runs the loop on what it is answered.
-/

namespace Calvera

open Calvera.Lib Calvera.Protocol

variable {E P A : Type}

/-- What a log shows of batches. -/
structure BatchDiscipline (log : List (ThreadEvent E)) : Prop where
  /-- The handler is called on `0, 1, 2, ..`. -/
  sequences : (calls log).map Prod.fst = seqRange 0 ((calls log).length - 1)
  /-- The flag is set on the sequence that `wait_for_events` returned, and only there. -/
  endOfBatch : ∀ before q e endOfBatch after,
    log = before ++ .handled q e endOfBatch :: after →
      ∃ available, lastAvailable before = some available ∧ (endOfBatch = true ↔ available = q)
  /-- The cursor is stored after the call that ends a batch, with its sequence. -/
  stored : ∀ before q after, log = before ++ .stored q :: after →
    ∃ before' e, before = before' ++ [.handled q e true]
  /-- When the loop waits or exits, the cursor covers all calls. -/
  covered : ∀ before e after, log = before ++ e :: after → e.waits = true →
    cursorAt before = (calls before).length - 1
  /-- A handler that flushes at the end of a batch has nothing in its buffer when
  the cursor is stored and when the loop waits or exits. -/
  flushed : ∀ before e after, log = before ++ e :: after → e.waits = true ∨ e.stores = true →
    unflushed before = []

/-- The phase tells how many calls there were. -/
theorem Phase.Told.length {log : List (ThreadEvent E)} {p : Phase} {next : Int}
    (h : p.Told log next) : ((calls log).length : Int) = next := by
  have hLength := congrArg List.length h.sequences
  rw [List.length_map, length_seqRange] at hLength
  have := h.next_ge
  omega

/-- Only a consumer that waits does what waiting does. -/
theorem Phase.Step.of_waits {p p' : Phase} {e : ThreadEvent E} (h : Phase.Step p e p')
    (hWaits : e.waits = true) : ∃ n, p = .waiting n := by
  cases h with
  | handle _ => cases hWaits
  | store _ => cases hWaits
  | _ => exact ⟨_, rfl⟩

/-- **Logs that go from phase to phase keep the discipline.** -/
theorem Follows.discipline {log : List (ThreadEvent E)} {p : Phase}
    (h : Follows (.waiting 0) log p) : BatchDiscipline log := by
  -- what was told where the log is cut, and the step taken there
  have hCut : ∀ {before e after}, log = before ++ e :: after →
      ∃ p' p'' next, p'.Told before next ∧ Phase.Step p' e p'' := by
    rintro before e after rfl
    obtain ⟨p', hBefore, hAfter⟩ := h.split
    obtain ⟨next, hTold⟩ := hBefore.told
    cases hAfter with
    | cons hStep _ => exact ⟨p', _, next, hTold, hStep⟩
  refine ⟨?_, ?_, ?_, ?_, ?_⟩
  · obtain ⟨next, hTold⟩ := h.told
    rw [hTold.length]
    exact hTold.sequences
  · intro before q e endOfBatch after hLog
    obtain ⟨p', p'', next, hTold, hStep⟩ := hCut hLog
    cases hStep with
    | @handle _ available _ hle =>
      obtain ⟨rfl, hLast, -⟩ := hTold.phase
      exact ⟨available, hLast, beq_iff_eq⟩
  · intro before q after hLog
    obtain ⟨p', p'', next, hTold, hStep⟩ := hCut hLog
    cases hStep with
    | @store n available hlt =>
      obtain ⟨rfl, -, hLe, hEnd⟩ := hTold.phase
      obtain rfl : available = n - 1 := by omega
      exact (hEnd hlt).2
  · intro before e after hLog hWaits
    obtain ⟨p', p'', next, hTold, hStep⟩ := hCut hLog
    obtain ⟨n, rfl⟩ := hStep.of_waits hWaits
    obtain ⟨rfl, hCursor, -⟩ := hTold.phase
    rw [hCursor, hTold.length]
  · intro before e after hLog hQuiet
    obtain ⟨p', p'', next, hTold, hStep⟩ := hCut hLog
    rcases hQuiet with hWaits | hStores
    · obtain ⟨n, rfl⟩ := hStep.of_waits hWaits
      exact hTold.phase.2.2
    · cases hStep with
      | store hlt =>
        obtain ⟨rfl, -, -, hEnd⟩ := hTold.phase
        exact (hEnd hlt).1
      | _ => cases hStores

/-- A part of a log from its start is such a log. -/
theorem Follows.of_prefix {log log' : List (ThreadEvent E)} {p : Phase}
    (h : Follows (.waiting 0) log' p) (hPrefix : log <+: log') :
    ∃ p', Follows (.waiting 0) log p' := by
  obtain ⟨more, rfl⟩ := hPrefix
  obtain ⟨p', hFollows, -⟩ := h.split
  exact ⟨p', hFollows⟩

/-- What a managed consumer of a running disruptor does. -/
structure ThreadSound (log : List (ThreadEvent E)) : Prop where
  discipline : BatchDiscipline log
  /-- The loop does the same on the answers and readings of the thread, and then
  goes on. -/
  loop : ∀ (K : Type) (eventHandler : K → E → Int → Bool → K) (handler : K), ∃ event : Int → E,
    log <+: (startProcessor eventHandler handler event (answers log) (shutdowns log)).log

theorem Disruptor.threadSound {R : RingSize} {T : Topology Nat} {w : Wiring}
    {producerBarrier : Barrier} {step : System P E → Act A → Option (System P E × List (Event E))}
    {ok : Act A → Prop} {s₀ s : System P E} {c : Nat} {spec : ConsumerSpec}
    {ts : List (Transition (System P E) (Act A) (Event E))}
    (hD : Disruptor R T w producerBarrier step ok s₀) (hPath : Path step ok s₀ ts s)
    (hSpec : w.consumers[c]? = some spec) (hKind : spec.kind ≠ .poller) :
    ThreadSound (threadLog R c ts) := by
  obtain ⟨event, hPrefix⟩ := hD.threadLog_prefix hPath hSpec hKind
  refine ⟨?_, fun K eventHandler handler => ⟨event, ?_⟩⟩
  · obtain ⟨log, p, hLoop, hFollows⟩ := startProcessor.loop_follows (fun _ _ _ _ => ()) event 0 NONE
      () (answers (threadLog R c ts)) (shutdowns (threadLog R c ts))
    rw [loopLog, hLoop] at hPrefix
    obtain ⟨p', hFollows'⟩ := hFollows.of_prefix hPrefix
    exact hFollows'.discipline
  · rw [startProcessor, startProcessor.loop_log _ event fun (_ : Unit) _ _ _ => ()]
    exact hPrefix

/-- **Batch discipline of both managed consumer loops.** For any answers of the
barrier and any readings of `shutdown_at_sequence`, `start_processor` calls its
handler on `0, 1, 2, ..` with the flag on the last of each batch, stores its
cursor after that call, and waits or exits only with all calls covered;
`start_processor_with_state` makes the same calls and stores, its state a left
fold over the calls from `initialize_state()`. Every managed consumer of either
disruptor runs this loop on what it is answered. -/
theorem batch_discipline :
    (∀ (K : Type) (eventHandler : K → E → Int → Bool → K) (handler : K) (event : Int → E)
      (answers shutdowns : List Int),
      let thread := startProcessor eventHandler handler event answers shutdowns
      BatchDiscipline thread.log ∧ thread.consumerCursor = cursorAt thread.log ∧
        thread.handler = handlerAfter eventHandler thread.log handler) ∧
    (∀ (K K' S : Type) (eventHandler : K → S → E → Int → Bool → K × S) (handler : K)
      (initializeState : Unit → S) (eventHandler' : K' → E → Int → Bool → K') (handler' : K')
      (event : Int → E) (answers shutdowns : List Int),
      let thread := startProcessorWithState eventHandler handler initializeState event answers
        shutdowns
      thread.log = (startProcessor eventHandler' handler' event answers shutdowns).log ∧
        thread.consumerCursor =
          (startProcessor eventHandler' handler' event answers shutdowns).consumerCursor ∧
        thread.handler = (calls thread.log).foldl
          (fun (handler, state) (sequence, event, endOfBatch) =>
            eventHandler handler state event sequence endOfBatch) (handler, initializeState ())) ∧
    (∀ (R : RingSize) (chain : BuildChain) (w : Wiring),
      chain.build buildUniProducerUnchecked = some w → ∀ (factory : Nat → E) ts s,
      Path (UniSystem.step R w) UniAct.InRange (UniSystem.init R w factory) ts s →
        ∀ c spec, w.consumers[c]? = some spec → spec.kind ≠ .poller →
          ThreadSound (threadLog R c ts)) ∧
    (∀ (R : MultiRingSize) (chain : BuildChain) (w : Wiring),
      chain.build buildMultiProducerUnchecked = some w → ∀ (factory : Nat → E) ts s,
      Path (MultiSystem.step R.toRingSize w) MultiAct.InRange
        (MultiSystem.init R.toRingSize w factory) ts s →
        ∀ c spec, w.consumers[c]? = some spec → spec.kind ≠ .poller →
          ThreadSound (threadLog R.toRingSize c ts)) := by
  refine ⟨?_, ?_, ?_, ?_⟩
  · intro K eventHandler handler event answers shutdowns
    obtain ⟨log, p, hLoop, hFollows⟩ :=
      startProcessor.loop_follows eventHandler event 0 NONE handler answers shutdowns
    simp only [startProcessor, hLoop]
    exact ⟨hFollows.discipline, rfl, trivial⟩
  · intro K K' S eventHandler handler initializeState eventHandler' handler' event answers shutdowns
    obtain ⟨log, p, hLoop, hFollows⟩ := startProcessor.loop_follows
      (startProcessorWithState.threaded eventHandler) event 0 NONE (handler, initializeState ())
      answers shutdowns
    obtain ⟨log', p', hLoop', -⟩ :=
      startProcessor.loop_follows eventHandler' event 0 NONE handler' answers shutdowns
    have hSame := startProcessor.loop_log (startProcessorWithState.threaded eventHandler) event
      eventHandler' 0 NONE NONE (handler, initializeState ()) handler' answers shutdowns
    rw [hLoop, hLoop'] at hSame
    have hStart : startProcessorWithState.loop eventHandler event 0 (-1) handler (initializeState ())
        answers shutdowns = _ := startProcessorWithState.loop_eq eventHandler event 0 NONE handler
      (initializeState ()) answers shutdowns
    simp only [startProcessorWithState, startProcessor, hStart, hLoop, hLoop']
    exact ⟨hSame, by rw [show log = log' from hSame], rfl⟩
  · intro R chain w hBuild factory ts s hPath c spec hSpec hKind
    exact (UniRun.disruptor (BuildChain.wired_uni hBuild) factory).threadSound hPath hSpec hKind
  · intro R chain w hBuild factory ts s hPath c spec hSpec hKind
    exact (MultiRun.disruptor (BuildChain.wired_multi hBuild) factory).threadSound hPath hSpec hKind

end Calvera
