import Calvera.Code.Basic

/-!
# Calvera — the loops of managed consumers

`start_processor`, `start_processor_with_state` and `wait_for_events` of
`src/consumer/managed.rs`, each translated from its own text. What a thread
does depends on what `barrier.get_after` answers, on what it reads from
`shutdown_at_sequence` and on what the slots hold. All of this is given in
advance here, the answers and readings as lists; a thread that has used up
either is still waiting for the next one.

`Calvera.Code.Consumer` has the same threads as steps that interleave with the
others, where the shared memory supplies the answers.
-/

namespace Calvera

variable {E K S : Type}

/-- What a managed consumer does, in the order of its code. -/
inductive ThreadEvent (E : Type) where
  /-- `barrier.get_after(sequence)` answered. -/
  | asked (sequence answer : Int)
  /-- `shutdown_at_sequence` was loaded. -/
  | checked (value : Int)
  /-- `wait_strategy.wait_for(sequence)`. -/
  | spun (sequence : Int)
  /-- `wait_for_events` returned. -/
  | waited (result : Option Int)
  /-- The event handler was called. -/
  | handled (sequence : Int) (event : E) (endOfBatch : Bool)
  /-- `consumer_cursor.store(sequence)`. -/
  | stored (sequence : Int)

/-- What a call of `wait_for_events` comes to. -/
inductive WaitResult where
  /-- It waits for the next answer or reading. -/
  | waiting
  /-- `None`. -/
  | none
  /-- `Some(available)`, with the answers and readings that are left. -/
  | some (available : Int) (answers shutdowns : List Int)

/-- `wait_for_events(sequence, ..)`. -/
def waitForEvents (sequence : Int) :
    (answers shutdowns : List Int) → List (ThreadEvent E) × WaitResult
  | [], _ => ([], .waiting)
  | available :: answers, shutdowns =>
    if available < sequence then
      match shutdowns with
      | [] => ([.asked sequence available], .waiting)
      | value :: shutdowns =>
        if value = sequence then
          ([.asked sequence available, .checked value, .waited .none], .none)
        else
          let (log, result) := waitForEvents sequence answers shutdowns
          (.asked sequence available :: .checked value :: .spun sequence :: log, result)
    else
      ([.asked sequence available, .waited (.some available)], .some available answers shutdowns)

/-- A wait that returns `Some(available)` has used up an answer, and `available`
is not behind. -/
theorem waitForEvents_some {sequence available : Int}
    {answers shutdowns answers' shutdowns' : List Int} {log : List (ThreadEvent E)}
    (h : waitForEvents sequence answers shutdowns = (log, .some available answers' shutdowns')) :
    answers'.length < answers.length ∧ sequence ≤ available := by
  fun_induction waitForEvents sequence answers shutdowns generalizing log with
  | case1 => cases h
  | case2 => cases h
  | case3 => cases h
  | case4 answer answers hlt value shutdowns hne log' result hRest ih =>
    obtain ⟨-, rfl⟩ := Prod.mk.inj h
    obtain ⟨hLength, hLe⟩ := ih hRest
    exact ⟨hLength.trans (Nat.lt_succ_self _), hLe⟩
  | case5 answer answers shutdowns hle =>
    cases h
    exact ⟨Nat.lt_succ_self _, Int.not_lt.mp hle⟩

/-- A thread as far as its answers and readings take it. -/
structure Thread (K E : Type) where
  log : List (ThreadEvent E)
  consumerCursor : Int
  /-- The variables of the handler. -/
  handler : K

-- ---------------------------------------------------------------------------
-- `start_processor`
-- ---------------------------------------------------------------------------

/-- `while available >= sequence { .. }`, with the sequence at its end;
`event sequence` is what the slot of the sequence holds when it is read. -/
def startProcessor.batch (eventHandler : K → E → Int → Bool → K) (event : Int → E)
    (available sequence : Int) (handler : K) : List (ThreadEvent E) × Int × K :=
  if available ≥ sequence then
    let endOfBatch := available == sequence
    let handler := eventHandler handler (event sequence) sequence endOfBatch
    let (log, sequence', handler) := batch eventHandler event available (sequence + 1) handler
    (.handled sequence (event sequence) endOfBatch :: log, sequence', handler)
  else ([], sequence, handler)
termination_by (available + 1 - sequence).toNat

/-- `while let Some(available) = wait_for_events(..) { .. }`. -/
def startProcessor.loop (eventHandler : K → E → Int → Bool → K) (event : Int → E)
    (sequence consumerCursor : Int) (handler : K) (answers shutdowns : List Int) : Thread K E :=
  match _hWait : waitForEvents sequence answers shutdowns with
  | (log, .waiting) | (log, .none) => ⟨log, consumerCursor, handler⟩
  | (log, .some available answers' shutdowns') =>
    let (handled, sequence, handler) := batch eventHandler event available sequence handler
    let rest := loop eventHandler event sequence (sequence - 1) handler answers' shutdowns'
    { rest with log := log ++ handled ++ .stored (sequence - 1) :: rest.log }
termination_by answers.length
decreasing_by exact (waitForEvents_some _hWait).1

/-- The thread of `start_processor`; `handler` are the variables that the closure
`event_handler` has captured. -/
def startProcessor (eventHandler : K → E → Int → Bool → K) (handler : K) (event : Int → E)
    (answers shutdowns : List Int) : Thread K E :=
  let consumerCursor := NONE
  let sequence := 0
  startProcessor.loop eventHandler event sequence consumerCursor handler answers shutdowns

-- ---------------------------------------------------------------------------
-- `start_processor_with_state`
-- ---------------------------------------------------------------------------

/-- `while available_sequence >= sequence { .. }`. -/
def startProcessorWithState.batch (eventHandler : K → S → E → Int → Bool → K × S)
    (event : Int → E) (availableSequence sequence : Int) (handler : K) (state : S) :
    List (ThreadEvent E) × Int × K × S :=
  if availableSequence ≥ sequence then
    let endOfBatch := availableSequence == sequence
    let (handler, state) := eventHandler handler state (event sequence) sequence endOfBatch
    let (log, sequence', handler, state) :=
      batch eventHandler event availableSequence (sequence + 1) handler state
    (.handled sequence (event sequence) endOfBatch :: log, sequence', handler, state)
  else ([], sequence, handler, state)
termination_by (availableSequence + 1 - sequence).toNat

/-- `while let Some(available_sequence) = wait_for_events(..) { .. }`. -/
def startProcessorWithState.loop (eventHandler : K → S → E → Int → Bool → K × S)
    (event : Int → E) (sequence consumerCursor : Int) (handler : K) (state : S)
    (answers shutdowns : List Int) : Thread (K × S) E :=
  match _hWait : waitForEvents sequence answers shutdowns with
  | (log, .waiting) | (log, .none) => ⟨log, consumerCursor, handler, state⟩
  | (log, .some availableSequence answers' shutdowns') =>
    let (handled, sequence, handler, state) :=
      batch eventHandler event availableSequence sequence handler state
    let rest := loop eventHandler event sequence (sequence - 1) handler state answers' shutdowns'
    { rest with log := log ++ handled ++ .stored (sequence - 1) :: rest.log }
termination_by answers.length
decreasing_by exact (waitForEvents_some _hWait).1

/-- The thread of `start_processor_with_state`. -/
def startProcessorWithState (eventHandler : K → S → E → Int → Bool → K × S) (handler : K)
    (initializeState : Unit → S) (event : Int → E) (answers shutdowns : List Int) :
    Thread (K × S) E :=
  let consumerCursor := -1
  let sequence := 0
  let state := initializeState ()
  startProcessorWithState.loop eventHandler event sequence consumerCursor handler state answers
    shutdowns

end Calvera
