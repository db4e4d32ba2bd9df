import Calvera.Code.Managed
import Calvera.Code.Producer

/-!
# Refinement — batches

What a managed consumer is for: it takes the stream batch by batch. `Phase` is
where such a consumer stands, `Phase.Step` what it may do there, and `Follows`
a log of such steps. Both loops of the source follow it, whatever they are
answered (`startProcessor.loop_follows`), and so do the threads of a running
disruptor.

What a log shows (`calls`, `cursorAt`, `lastAvailable`, `unflushed`) is told
by the phase it leads to: `Follows.told`.
-/

namespace Calvera

variable {E K S : Type}

-- ---------------------------------------------------------------------------
-- What a log shows
-- ---------------------------------------------------------------------------

/-- The call of the handler, with its arguments. -/
def ThreadEvent.call? : ThreadEvent E → Option (Int × E × Bool)
  | .handled sequence event endOfBatch => some (sequence, event, endOfBatch)
  | _ => none

/-- The calls of the handler, in order. -/
def calls (log : List (ThreadEvent E)) : List (Int × E × Bool) := log.filterMap ThreadEvent.call?

/-- What a cursor at `cursor` says after this log. -/
def cursorFrom (cursor : Int) (log : List (ThreadEvent E)) : Int :=
  log.foldl (fun cursor e => match e with | .stored sequence => sequence | _ => cursor) cursor

/-- What the consumer's cursor says after this log. -/
def cursorAt (log : List (ThreadEvent E)) : Int := cursorFrom NONE log

/-- What `wait_for_events` returned last, if it was not `None`. -/
def lastAvailable (log : List (ThreadEvent E)) : Option Int :=
  log.foldl (fun last e => match e with | .waited result => result | _ => last) none

/-- What a handler still has in its buffer that adds each sequence to it and
flushes it at the end of a batch. -/
def unflushed (log : List (ThreadEvent E)) : List Int :=
  (calls log).foldl (fun buffer (sequence, _, endOfBatch) =>
    if endOfBatch then [] else buffer ++ [sequence]) []

@[simp] theorem calls_append (log log' : List (ThreadEvent E)) :
    calls (log ++ log') = calls log ++ calls log' := by
  simp [calls]

/-- The event is one of waiting for events, the exit included. -/
def ThreadEvent.waits : ThreadEvent E → Bool
  | .handled _ _ _ | .stored _ => false
  | _ => true

/-- The event stores the cursor. -/
def ThreadEvent.stores : ThreadEvent E → Bool
  | .stored _ => true
  | _ => false

-- ---------------------------------------------------------------------------
-- Phases
-- ---------------------------------------------------------------------------

/-- Where a consumer stands that takes the stream batch by batch. -/
inductive Phase where
  /-- All before `next` are handled, and its cursor says so. -/
  | waiting (next : Int)
  /-- In a batch that ends with `available`. -/
  | batch (next available : Int)
  | exited (next : Int)

/-- What it may do next. -/
inductive Phase.Step : Phase → ThreadEvent E → Phase → Prop
  | asked {next answer : Int} : Step (.waiting next) (.asked next answer) (.waiting next)
  | checked {next value : Int} : Step (.waiting next) (.checked value) (.waiting next)
  | spun {next : Int} : Step (.waiting next) (.spun next) (.waiting next)
  | enter {next available : Int} : next ≤ available →
      Step (.waiting next) (.waited (some available)) (.batch next available)
  | exit {next : Int} : Step (.waiting next) (.waited none) (.exited next)
  | handle {next available : Int} {event : E} : next ≤ available →
      Step (.batch next available) (.handled next event (available == next))
        (.batch (next + 1) available)
  | store {next available : Int} : available < next →
      Step (.batch next available) (.stored (next - 1)) (.waiting next)

/-- From one phase to another with these steps. -/
inductive Follows : Phase → List (ThreadEvent E) → Phase → Prop
  | nil {p : Phase} : Follows p [] p
  | cons {p p' p'' : Phase} {e : ThreadEvent E} {log : List (ThreadEvent E)} :
      Phase.Step p e p' → Follows p' log p'' → Follows p (e :: log) p''

namespace Follows

variable {p p' p'' : Phase} {e : ThreadEvent E} {log log' : List (ThreadEvent E)}

theorem single (h : Phase.Step p e p') : Follows p [e] p' := .cons h .nil

theorem append (h : Follows p log p') (h' : Follows p' log' p'') : Follows p (log ++ log') p'' := by
  induction h with
  | nil => exact h'
  | cons hStep _ ih => exact .cons hStep (ih h')

/-- A log can be cut anywhere. -/
theorem split (h : Follows p (log ++ log') p'') : ∃ p', Follows p log p' ∧ Follows p' log' p'' := by
  induction log generalizing p with
  | nil => exact ⟨p, .nil, h⟩
  | cons e log ih =>
    cases h with
    | cons hStep hRest =>
      obtain ⟨p', hLeft, hRight⟩ := ih hRest
      exact ⟨p', .cons hStep hLeft, hRight⟩

end Follows

/-- What the phase says about the log that led to it. -/
structure Phase.Told (log : List (ThreadEvent E)) (p : Phase) (next : Int) : Prop where
  next_ge : 0 ≤ next
  sequences : (calls log).map Prod.fst = seqRange 0 (next - 1)
  phase : match p with
    | .waiting n | .exited n => n = next ∧ cursorAt log = next - 1 ∧ unflushed log = []
    | .batch n available => n = next ∧ lastAvailable log = some available ∧ next ≤ available + 1 ∧
      (available < next → unflushed log = [] ∧
        ∃ log' event, log = log' ++ [.handled available event true])

/-- The start of either loop. -/
theorem Phase.told_nil : Phase.Told ([] : List (ThreadEvent E)) (.waiting 0) 0 :=
  ⟨le_refl _, rfl, rfl, rfl, rfl⟩

/-- Waiting shows no calls. -/
theorem calls_waits (log : List (ThreadEvent E)) {e : ThreadEvent E} (h : e.waits = true) :
    calls (log ++ [e]) = calls log ∧ cursorAt (log ++ [e]) = cursorAt log := by
  cases e with
  | handled q event endOfBatch => cases h
  | stored q => cases h
  | _ => simp [calls, ThreadEvent.call?, cursorAt, cursorFrom]

/-- Nothing changes while the consumer waits. -/
theorem Phase.Told.wait {log : List (ThreadEvent E)} {n next : Int} {e : ThreadEvent E}
    (h : (Phase.waiting n).Told log next) (hWaits : e.waits = true) :
    (Phase.waiting n).Told (log ++ [e]) next ∧ (Phase.exited n).Told (log ++ [e]) next := by
  obtain ⟨hGe, hSequences, hPhase⟩ := h
  obtain ⟨hCalls, hCursor⟩ := calls_waits log hWaits
  rw [← hCalls] at hSequences
  have hSame : n = next ∧ cursorAt (log ++ [e]) = next - 1 ∧ unflushed (log ++ [e]) = [] := by
    rw [hCursor, unflushed, hCalls]
    exact hPhase
  exact ⟨⟨hGe, hSequences, hSame⟩, ⟨hGe, hSequences, hSame⟩⟩

/-- **One step.** Only a call of the handler moves on, and the flag is set where
the batch ends. -/
theorem Phase.Told.step {log : List (ThreadEvent E)} {p p' : Phase} {next : Int} {e : ThreadEvent E}
    (h : p.Told log next) (hStep : Phase.Step p e p') : ∃ next', p'.Told (log ++ [e]) next' := by
  cases hStep with
  | asked => exact ⟨next, (h.wait rfl).1⟩
  | checked => exact ⟨next, (h.wait rfl).1⟩
  | spun => exact ⟨next, (h.wait rfl).1⟩
  | exit => exact ⟨next, (h.wait rfl).2⟩
  | @enter n available hle =>
    obtain ⟨hGe, hSequences, rfl, -, -⟩ := h
    have hSame : calls (log ++ [.waited (some available)]) = calls log := (calls_waits log rfl).1
    refine ⟨_, hGe, hSame ▸ hSequences, rfl, ?_, by omega, fun hlt => ?_⟩
    · simp [lastAvailable]
    · omega
  | @handle n available event hle =>
    obtain ⟨hGe, hSequences, rfl, hLast, -, -⟩ := h
    have hMore : seqRange 0 (n - 1) ++ seqRange (n - 1 + 1) n = seqRange 0 n :=
      seqRange_append (by omega) (by omega)
    rw [Int.sub_add_cancel, seqRange_self] at hMore
    refine ⟨n + 1, by omega, ?_, rfl, ?_, by omega, fun hlt => ?_⟩
    · rw [calls_append, List.map_append, hSequences, Int.add_sub_cancel, ← hMore]
      rfl
    · simpa [lastAvailable] using hLast
    · -- the last of the batch
      obtain rfl : n = available := by omega
      refine ⟨?_, log, event, by simp⟩
      simp [unflushed, calls, ThreadEvent.call?]
  | @store n available hlt =>
    obtain ⟨hGe, hSequences, rfl, -, -, hEnd⟩ := h
    have hSame : calls (log ++ [.stored (n - 1)]) = calls log := by simp [calls, ThreadEvent.call?]
    refine ⟨_, hGe, hSame ▸ hSequences, rfl, by simp [cursorAt, cursorFrom], ?_⟩
    rw [unflushed, hSame]
    exact (hEnd hlt).1

/-- **A log tells its phase.** -/
theorem Follows.told {log : List (ThreadEvent E)} {p : Phase} (h : Follows (.waiting 0) log p) :
    ∃ next, p.Told log next := by
  suffices hFrom : ∀ {p p' : Phase} {log log' : List (ThreadEvent E)} {next : Int},
      Follows p log' p' → p.Told log next → ∃ next', p'.Told (log ++ log') next' by
    simpa using hFrom h Phase.told_nil
  intro p p' log log' next h hTold
  induction h generalizing log next with
  | nil => exact ⟨next, by simpa using hTold⟩
  | cons hStep _ ih =>
    obtain ⟨next', hTold'⟩ := hTold.step hStep
    simpa using ih hTold'

-- ---------------------------------------------------------------------------
-- The loops
-- ---------------------------------------------------------------------------

/-- `wait_for_events` returns a batch, ends the loop, or waits on. -/
theorem waitForEvents_follows (sequence : Int) (answers shutdowns : List Int) :
    Follows (.waiting sequence) (waitForEvents (E := E) sequence answers shutdowns).1
      (match (waitForEvents (E := E) sequence answers shutdowns).2 with
        | .waiting => .waiting sequence
        | .none => .exited sequence
        | .some available _ _ => .batch sequence available) := by
  fun_induction waitForEvents (E := E) sequence answers shutdowns with
  | case1 => exact .nil
  | case2 => exact .single .asked
  | case3 => exact .cons .asked (.cons .checked (.single .exit))
  | case4 answer answers hlt value shutdowns hne log result hRest ih =>
    rw [hRest] at ih
    exact .cons .asked (.cons .checked (.cons .spun ih))
  | case5 answer answers shutdowns hle =>
    exact .cons .asked (.single (.enter (Int.not_lt.mp hle)))

/-- Waiting calls no handler and stores no cursor. -/
theorem waitForEvents_silent {sequence : Int} {answers shutdowns : List Int}
    {log : List (ThreadEvent E)} {result : WaitResult}
    (h : waitForEvents sequence answers shutdowns = (log, result)) :
    calls log = [] ∧ ∀ cursor, cursorFrom cursor log = cursor := by
  obtain rfl : (waitForEvents (E := E) sequence answers shutdowns).1 = log := by rw [h]
  clear h
  fun_induction waitForEvents (E := E) sequence answers shutdowns with
  | case4 answer answers hlt value shutdowns hne log result hRest ih =>
    rw [hRest] at ih
    exact ih
  | _ => exact ⟨rfl, fun _ => rfl⟩

/-- What the calls make of the variables of a handler. -/
def handlerAfter (eventHandler : K → E → Int → Bool → K) (log : List (ThreadEvent E))
    (handler : K) : K :=
  (calls log).foldl (fun handler (sequence, event, endOfBatch) =>
    eventHandler handler event sequence endOfBatch) handler

theorem handlerAfter_append (eventHandler : K → E → Int → Bool → K)
    (log log' : List (ThreadEvent E)) (handler : K) :
    handlerAfter eventHandler (log ++ log') handler =
      handlerAfter eventHandler log' (handlerAfter eventHandler log handler) := by
  simp [handlerAfter]

namespace startProcessor

variable (eventHandler : K → E → Int → Bool → K) (event : Int → E)

/-- The inner loop handles the batch to its end. -/
theorem batch_follows (available sequence : Int) (handler : K) (hLe : sequence ≤ available + 1) :
    ∃ log, batch eventHandler event available sequence handler =
        (log, available + 1, handlerAfter eventHandler log handler) ∧
      Follows (.batch sequence available) log (.batch (available + 1) available) := by
  fun_induction batch eventHandler event available sequence handler with
  | case1 sequence handler hGe endOfBatch handler' log sequence' handler'' hRest ih =>
    obtain ⟨log', hEq, hFollows⟩ := ih (by omega)
    rw [hRest] at hEq
    obtain ⟨rfl, hEq⟩ := Prod.mk.inj hEq
    obtain ⟨rfl, rfl⟩ := Prod.mk.inj hEq
    exact ⟨_, rfl, .cons (.handle hGe) hFollows⟩
  | case2 sequence handler hlt =>
    obtain rfl : sequence = available + 1 := by omega
    exact ⟨[], rfl, .nil⟩

variable {sequence consumerCursor : Int} {handler : K} {answers shutdowns : List Int}
  {log : List (ThreadEvent E)}

theorem loop_stop {result : WaitResult}
    (hWait : waitForEvents sequence answers shutdowns = (log, result))
    (hStop : result = .waiting ∨ result = .none) :
    loop eventHandler event sequence consumerCursor handler answers shutdowns =
      ⟨log, consumerCursor, handler⟩ := by
  rw [loop]
  rcases hStop with rfl | rfl <;> split <;> simp_all

theorem loop_some {available : Int} {answers' shutdowns' : List Int}
    (hWait : waitForEvents sequence answers shutdowns = (log, .some available answers' shutdowns'))
    {handled : List (ThreadEvent E)} {sequence' : Int} {handler' : K}
    (hBatch : batch eventHandler event available sequence handler =
      (handled, sequence', handler')) {rest : Thread K E}
    (hRest : loop eventHandler event sequence' (sequence' - 1) handler' answers' shutdowns' = rest) :
    loop eventHandler event sequence consumerCursor handler answers shutdowns =
      { rest with log := log ++ handled ++ .stored (sequence' - 1) :: rest.log } := by
  rw [loop]
  split <;> simp_all

/-- **The loop takes the stream batch by batch.** Its cursor is what it stored
last, and the variables of its handler are folded over the calls. -/
theorem loop_follows (sequence consumerCursor : Int) (handler : K) (answers shutdowns : List Int) :
    ∃ log p, loop eventHandler event sequence consumerCursor handler answers shutdowns =
        ⟨log, cursorFrom consumerCursor log, handlerAfter eventHandler log handler⟩ ∧
      Follows (.waiting sequence) log p := by
  fun_induction loop eventHandler event sequence consumerCursor handler answers shutdowns with
  | case1 sequence consumerCursor handler answers shutdowns log hWait =>
    have hFollows := waitForEvents_follows (E := E) sequence answers shutdowns
    obtain ⟨hCalls, hCursor⟩ := waitForEvents_silent hWait
    rw [hWait] at hFollows
    exact ⟨log, _, by rw [handlerAfter, hCalls, hCursor]; rfl, hFollows⟩
  | case2 sequence consumerCursor handler answers shutdowns log hWait =>
    have hFollows := waitForEvents_follows (E := E) sequence answers shutdowns
    obtain ⟨hCalls, hCursor⟩ := waitForEvents_silent hWait
    rw [hWait] at hFollows
    exact ⟨log, _, by rw [handlerAfter, hCalls, hCursor]; rfl, hFollows⟩
  | case3 sequence consumerCursor handler answers shutdowns log available answers' shutdowns' hWait
      handled sequence' handler' hBatch rest ih =>
    have hFollows := waitForEvents_follows (E := E) sequence answers shutdowns
    obtain ⟨hCalls, hCursor⟩ := waitForEvents_silent hWait
    have hLe := (waitForEvents_some hWait).2
    rw [hWait] at hFollows
    obtain ⟨handled', hEq, hInner⟩ := batch_follows eventHandler event available sequence handler
      (by omega)
    obtain ⟨rfl, hEq⟩ := Prod.mk.inj (hBatch.symm.trans hEq)
    obtain ⟨rfl, rfl⟩ := Prod.mk.inj hEq
    obtain ⟨log', p, hLoop, hRest⟩ := ih
    refine ⟨_, p, ?_, hFollows.append (hInner.append (.cons (.store (by omega)) hRest))⟩
    have hHandler : handlerAfter eventHandler (log ++ (handled ++ .stored (available + 1 - 1) :: log'))
        handler = handlerAfter eventHandler log' (handlerAfter eventHandler handled handler) := by
      have hSame : handlerAfter eventHandler log handler = handler := by
        rw [handlerAfter, hCalls]
        rfl
      rw [handlerAfter_append, handlerAfter_append, hSame]
      rfl
    have hStored :
        cursorFrom consumerCursor (log ++ (handled ++ .stored (available + 1 - 1) :: log')) =
        cursorFrom (available + 1 - 1) log' := by
      simp [cursorFrom]
    rw [hHandler, hStored]
    show Thread.mk (log ++ handled ++ .stored (available + 1 - 1) :: rest.log) rest.consumerCursor
      rest.handler = _
    rw [show rest = _ from hLoop, List.append_assoc]

/-- The log does not depend on the handler. -/
theorem batch_log {K' : Type} (eventHandler' : K' → E → Int → Bool → K') (available sequence : Int)
    (handler : K) (handler' : K') :
    (batch eventHandler event available sequence handler).1 =
        (batch eventHandler' event available sequence handler').1 ∧
      (batch eventHandler event available sequence handler).2.1 =
        (batch eventHandler' event available sequence handler').2.1 := by
  fun_induction batch eventHandler event available sequence handler generalizing handler' with
  | case1 sequence handler hGe endOfBatch handler₁ log sequence' handler₂ hRest ih =>
    obtain ⟨hLog, hSequence⟩ := ih (eventHandler' handler' (event sequence) sequence endOfBatch)
    rw [hRest] at hLog hSequence
    rw [batch, if_pos hGe]
    exact ⟨congrArg _ hLog, hSequence⟩
  | case2 sequence handler hlt =>
    rw [batch, if_neg hlt]
    exact ⟨rfl, rfl⟩

theorem loop_log {K' : Type} (eventHandler' : K' → E → Int → Bool → K')
    (sequence consumerCursor consumerCursor' : Int) (handler : K) (handler' : K')
    (answers shutdowns : List Int) :
    (loop eventHandler event sequence consumerCursor handler answers shutdowns).log =
      (loop eventHandler' event sequence consumerCursor' handler' answers shutdowns).log := by
  fun_induction loop eventHandler event sequence consumerCursor handler answers shutdowns
    generalizing consumerCursor' handler' with
  | case1 sequence consumerCursor handler answers shutdowns log hWait =>
    rw [loop_stop eventHandler' event hWait (.inl rfl)]
  | case2 sequence consumerCursor handler answers shutdowns log hWait =>
    rw [loop_stop eventHandler' event hWait (.inr rfl)]
  | case3 sequence consumerCursor handler answers shutdowns log available answers' shutdowns' hWait
      handled sequence' handler₁ hBatch rest ih =>
    obtain ⟨hLog, hSequence⟩ := batch_log eventHandler event eventHandler' available sequence handler
      handler'
    rw [hBatch] at hLog hSequence
    rw [loop_some eventHandler' event hWait (Prod.ext hLog.symm (Prod.ext hSequence.symm rfl)) rfl,
      ← ih]

end startProcessor

namespace startProcessorWithState

variable (eventHandler : K → S → E → Int → Bool → K × S) (event : Int → E)

/-- The handler with its state as one of its variables. -/
def threaded : K × S → E → Int → Bool → K × S := fun (handler, state) event sequence endOfBatch =>
  eventHandler handler state event sequence endOfBatch

/-- The two inner loops do the same. -/
theorem batch_eq (available sequence : Int) (handler : K) (state : S) :
    batch eventHandler event available sequence handler state =
      startProcessor.batch (threaded eventHandler) event available sequence (handler, state) := by
  fun_induction batch eventHandler event available sequence handler state with
  | case1 sequence handler state hGe endOfBatch handler' state' hHandler log sequence' handler''
      state'' hRest ih =>
    have hThreaded : threaded eventHandler (handler, state) (event sequence) sequence
        (available == sequence) = (handler', state') := hHandler
    rw [startProcessor.batch, if_pos hGe]
    simp only [hThreaded, ← ih, hRest]
    rfl
  | case2 sequence handler state hlt => rw [startProcessor.batch, if_neg hlt]

/-- **The two loops do the same**, with the state threaded through the calls. -/
theorem loop_eq (sequence consumerCursor : Int) (handler : K) (state : S)
    (answers shutdowns : List Int) :
    loop eventHandler event sequence consumerCursor handler state answers shutdowns =
      startProcessor.loop (threaded eventHandler) event sequence consumerCursor (handler, state)
        answers shutdowns := by
  fun_induction loop eventHandler event sequence consumerCursor handler state answers shutdowns with
  | case1 sequence consumerCursor handler state answers shutdowns log hWait =>
    rw [startProcessor.loop_stop _ event hWait (.inl rfl)]
  | case2 sequence consumerCursor handler state answers shutdowns log hWait =>
    rw [startProcessor.loop_stop _ event hWait (.inr rfl)]
  | case3 sequence consumerCursor handler state answers shutdowns log available answers' shutdowns'
      hWait handled sequence' handler' state' hBatch rest ih =>
    rw [batch_eq] at hBatch
    rw [startProcessor.loop_some _ event hWait hBatch ih.symm]

end startProcessorWithState

end Calvera
