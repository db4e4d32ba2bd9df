import Calvera.Code.Builder
import Calvera.Code.Event

/-!
# Calvera — consumers

The threads of managed consumers (`src/consumer/managed.rs`) and the event
pollers (`src/consumer/unmanaged.rs`) as a step function on a program counter.
One step performs at most one atomic operation. `start_processor` and
`start_processor_with_state` run the same loop, so they share their states
here; the state of a handler is not part of the shared memory.

`ConsumerStep` lists every possible step with its guard and effect, and
`consumerStep_cases` says the step function does nothing else. Proofs about
steps go by cases on it.
-/

namespace Calvera

variable {E : Type}

/-- Where a consumer is. -/
inductive ConsumerPc where
  /-- `wait_for_events(sequence)`, inside `barrier.get_after(sequence)`. -/
  | waitForEvents (sequence : Int) (g : GetAfter)
  /-- `wait_for_events(sequence)`, about to load `shutdown_at_sequence`. -/
  | checkShutdown (sequence : Int)
  /-- At the test `available >= sequence` of the inner loop. -/
  | batch (sequence available : Int)
  /-- Inside `event_handler(event, sequence, ..)`. -/
  | handler (sequence available : Int)
  /-- The thread has left its loop. -/
  | exited
  /-- A poller between calls, with the error its last call returned, if any. -/
  | idle (last : Option EPolling)
  /-- `poll_take(limit)`, about to load `shutdown_at_sequence`. -/
  | readShutdown (cursorAt : Int) (limit : Nat)
  /-- `poll_take(limit)`, inside `dependent_barrier.get_after(cursor_at + 1)`. -/
  | getAvailable (cursorAt : Int) (limit : Nat) (g : GetAfter)
  /-- The client holds an `EventGuard { sequence, available }`. -/
  | guard (sequence available : Int)

/-- What a consumer can do next. -/
inductive ConsumerAct where
  /-- The next step of its thread, or of a `poll_take` in progress. -/
  | tick
  /-- `poll()`. -/
  | poll
  /-- `poll_take(limit)`. -/
  | pollTake (limit : Nat)
  /-- `next()` on the guard. -/
  | next
  /-- Drop the guard. -/
  | dropGuard

/-- `u64::MAX`. -/
def u64Max : Nat := 2 ^ 64 - 1

/-- The state in which a consumer starts. -/
def ConsumerSpec.start (spec : ConsumerSpec) : ConsumerPc :=
  match spec.kind with
  | .poller => .idle none
  | _ => .waitForEvents 0 (spec.dependentBarrier.getAfter 0)

/-- One step of consumer `c`, which waits on barrier `b`. -/
def consumerStep (R : RingSize) (b : Barrier) (c : Nat) (m : Memory E) (pc : ConsumerPc)
    (act : ConsumerAct) : Option (Memory E × ConsumerPc × List (Event E)) :=
  match pc, act with
  | .waitForEvents sequence g, .tick =>
    match g.step R m with
    | .inl g' => some (m, .waitForEvents sequence g', [])
    | .inr available =>
      if available < sequence then some (m, .checkShutdown sequence, [])
      else some (m, .batch sequence available, [])
  | .checkShutdown sequence, .tick =>
    if m.shutdownAtSequence = sequence then some (m, .exited, [.waitEnded c])
    else some (m, .waitForEvents sequence (b.getAfter sequence), [])
  | .batch sequence available, .tick =>
    if sequence ≤ available then
      let endOfBatch := available == sequence
      let event := m.slots (R.slot sequence)
      some (m, .handler sequence available, [.handled c sequence event endOfBatch])
    else
      some (m.storeCursor c (sequence - 1), .waitForEvents sequence (b.getAfter sequence), [])
  | .handler sequence available, .tick => some (m, .batch (sequence + 1) available, [])
  | .idle _, .poll => some (m, .readShutdown (m.consumerCursors c) u64Max, [])
  | .idle _, .pollTake limit => some (m, .readShutdown (m.consumerCursors c) limit, [])
  | .readShutdown cursorAt limit, .tick =>
    let sequence := cursorAt + 1
    if sequence = m.shutdownAtSequence then
      some (m, .idle (some .shutdown), [.pollFailed c .shutdown])
    else some (m, .getAvailable cursorAt limit (b.getAfter sequence), [])
  | .getAvailable cursorAt limit g, .tick =>
    let sequence := cursorAt + 1
    match g.step R m with
    | .inl g' => some (m, .getAvailable cursorAt limit g', [])
    | .inr available =>
      if available < sequence then some (m, .idle (some .noEvents), [.pollFailed c .noEvents])
      else
        let maxSequence := saturatingAddUnsigned cursorAt limit
        some (m, .guard sequence (min available maxSequence), [])
  | .guard sequence available, .next =>
    if sequence > available then some (m, .guard sequence available, [])
    else
      some (m, .guard (sequence + 1) available, [.yielded c sequence (m.slots (R.slot sequence))])
  | .guard sequence available, .dropGuard =>
    some (m.storeCursor c available, .idle none, [.guardDropped c sequence available])
  | _, _ => none

/-- The steps of consumer `c`, with their guards and effects. -/
inductive ConsumerStep (R : RingSize) (b : Barrier) (c : Nat) (m : Memory E) :
    ConsumerPc → Memory E → ConsumerPc → List (Event E) → Prop
  | waitRead {q g g'} : g.step R m = .inl g' →
      ConsumerStep R b c m (.waitForEvents q g) m (.waitForEvents q g') []
  | waitMiss {q g v} : g.step R m = .inr v → v < q →
      ConsumerStep R b c m (.waitForEvents q g) m (.checkShutdown q) []
  | waitHit {q g v} : g.step R m = .inr v → q ≤ v →
      ConsumerStep R b c m (.waitForEvents q g) m (.batch q v) []
  | exit {q} : m.shutdownAtSequence = q →
      ConsumerStep R b c m (.checkShutdown q) m .exited [.waitEnded c]
  | retry {q} : m.shutdownAtSequence ≠ q →
      ConsumerStep R b c m (.checkShutdown q) m (.waitForEvents q (b.getAfter q)) []
  | handle {q v} : q ≤ v →
      ConsumerStep R b c m (.batch q v) m (.handler q v)
        [.handled c q (m.slots (R.slot q)) (v == q)]
  | handled {q v} : ConsumerStep R b c m (.handler q v) m (.batch (q + 1) v) []
  | store {q v} : v < q →
      ConsumerStep R b c m (.batch q v) (m.storeCursor c (q - 1))
        (.waitForEvents q (b.getAfter q)) []
  | pollTake {last limit} :
      ConsumerStep R b c m (.idle last) m (.readShutdown (m.consumerCursors c) limit) []
  | pollShutdown {at_ limit} : at_ + 1 = m.shutdownAtSequence →
      ConsumerStep R b c m (.readShutdown at_ limit) m (.idle (some .shutdown))
        [.pollFailed c .shutdown]
  | pollOpen {at_ limit} : at_ + 1 ≠ m.shutdownAtSequence →
      ConsumerStep R b c m (.readShutdown at_ limit) m
        (.getAvailable at_ limit (b.getAfter (at_ + 1))) []
  | pollRead {at_ limit g g'} : g.step R m = .inl g' →
      ConsumerStep R b c m (.getAvailable at_ limit g) m (.getAvailable at_ limit g') []
  | pollMiss {at_ limit g v} : g.step R m = .inr v → v < at_ + 1 →
      ConsumerStep R b c m (.getAvailable at_ limit g) m (.idle (some .noEvents))
        [.pollFailed c .noEvents]
  | pollHit {at_ limit g v} : g.step R m = .inr v → at_ + 1 ≤ v →
      ConsumerStep R b c m (.getAvailable at_ limit g) m
        (.guard (at_ + 1) (min v (saturatingAddUnsigned at_ limit))) []
  | nextNone {q v} : v < q → ConsumerStep R b c m (.guard q v) m (.guard q v) []
  | nextSome {q v} : q ≤ v →
      ConsumerStep R b c m (.guard q v) m (.guard (q + 1) v)
        [.yielded c q (m.slots (R.slot q))]
  | dropGuard {q v} :
      ConsumerStep R b c m (.guard q v) (m.storeCursor c v) (.idle none) [.guardDropped c q v]

variable {R : RingSize} {b : Barrier} {c : Nat} {m m' : Memory E} {pc pc' : ConsumerPc}
  {act : ConsumerAct} {es : List (Event E)}

theorem consumerStep_cases (h : consumerStep R b c m pc act = some (m', pc', es)) :
    ConsumerStep R b c m pc m' pc' es := by
  unfold consumerStep at h
  split at h
  · split at h
    · rename_i hg
      cases h
      exact .waitRead hg
    · rename_i hg
      split at h <;> rename_i hlt <;> cases h
      · exact .waitMiss hg hlt
      · exact .waitHit hg (Int.not_lt.mp hlt)
  · split at h <;> rename_i hEq <;> cases h
    · exact .exit hEq
    · exact .retry hEq
  · split at h <;> rename_i hle <;> cases h
    · exact .handle hle
    · exact .store (Int.not_le.mp hle)
  · cases h
    exact .handled
  · cases h
    exact .pollTake
  · cases h
    exact .pollTake
  · dsimp only at h
    split at h <;> rename_i hEq <;> cases h
    · exact .pollShutdown hEq
    · exact .pollOpen hEq
  · dsimp only at h
    split at h
    · rename_i hg
      cases h
      exact .pollRead hg
    · rename_i hg
      split at h <;> rename_i hlt <;> cases h
      · exact .pollMiss hg hlt
      · exact .pollHit hg (Int.not_lt.mp hlt)
  · split at h <;> rename_i hgt <;> cases h
    · exact .nextNone hgt
    · exact .nextSome (Int.not_lt.mp hgt)
  · cases h
    exact .dropGuard
  · cases h

/-- The state is one of a poller. -/
def ConsumerPc.ofPoller : ConsumerPc → Bool
  | .idle _ | .readShutdown _ _ | .getAvailable _ _ _ | .guard _ _ => true
  | _ => false

/-- Pollers stay pollers, and threads stay threads. -/
theorem ConsumerStep.ofPoller (h : ConsumerStep R b c m pc m' pc' es) :
    pc'.ofPoller = pc.ofPoller := by
  cases h <;> rfl

/-- Only pollers drop guards, each its own. -/
theorem ConsumerStep.dropped (h : ConsumerStep R b c m pc m' pc' es) {c' : Nat} {q v : Int}
    (hMem : Event.guardDropped c' q v ∈ es) : c' = c ∧ pc.ofPoller = true := by
  cases h <;> simp at hMem
  exact ⟨hMem.1, rfl⟩

theorem ConsumerSpec.start_ofPoller (spec : ConsumerSpec) :
    spec.start.ofPoller = (spec.kind == .poller) := by
  unfold start
  cases spec.kind <;> rfl

/-- A consumer emits consumer events only. -/
theorem ConsumerStep.ofConsumer (h : ConsumerStep R b c m pc m' pc' es) :
    ∀ e ∈ es, e.OfConsumer := by
  intro e he
  cases h <;> simp at he <;> subst he <;> trivial

/-- A consumer writes nothing but its own cursor. -/
theorem ConsumerStep.memory (h : ConsumerStep R b c m pc m' pc' es) :
    m' = m ∨ ∃ v, m' = m.storeCursor c v := by
  cases h <;> simp

theorem ConsumerStep.cursor_ne (h : ConsumerStep R b c m pc m' pc' es) {c' : Nat} (hne : c' ≠ c) :
    m'.consumerCursors c' = m.consumerCursors c' := by
  rcases h.memory with rfl | ⟨v, rfl⟩
  · rfl
  · simp [Memory.storeCursor, hne]

/-- A consumer observes nothing in the name of another. -/
theorem ConsumerStep.observed_ne (h : ConsumerStep R b c m pc m' pc' es) {c' : Nat}
    (hne : c ≠ c') : observed c' es = [] := by
  cases h <;> simp [observed, Event.observed?, hne]

end Calvera
