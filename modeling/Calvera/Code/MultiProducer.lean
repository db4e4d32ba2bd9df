import Calvera.Code.UniProducer

/-!
# Calvera — the cloneable producer

`MultiProducer` and the publishing side of `MultiProducerBarrier`
(`src/producer/multi.rs`). Each handle is a step function on a program
counter: `next_sequences` with its compare-exchange loop, `apply_update`,
`apply_updates`, and the word-wise `publish_range_relaxed`. The handles share
the context behind the mutex (`SharedProducers`), which `clone` and `drop`
change.

`MultiStep` lists every possible step of a handle, and
`multiProducerStep_cases` says the step function does nothing else.
-/

namespace Calvera

variable {E : Type}

-- ---------------------------------------------------------------------------
-- Publishing
-- ---------------------------------------------------------------------------

/-- The loop variables of `publish_range_relaxed(from, n)`. -/
structure PublishRange where
  start : Int
  n : Int
  i : Int
  availabilityIndex : Nat
  bitIndex : Nat
  flipMask : BitVec 64

namespace PublishRange

/-- Before the loop. -/
def new (R : RingSize) (start n : Int) : PublishRange :=
  let (availabilityIndex, bitIndex) := R.calculateAvailabilityIndices start
  { start := start
    n := n
    i := 0
    availabilityIndex := availabilityIndex
    bitIndex := bitIndex
    flipMask := 0#64 }

/-- One iteration, or the code after the loop: the `fetch_xor` it performs, if
any, and the variables of the next iteration, if the call is not over. -/
def step (R : RingSize) (r : PublishRange) : Option (Nat × BitVec 64) × Option PublishRange :=
  if r.i < r.n then
    let flipMask := r.flipMask ||| 1#64 <<< r.bitIndex
    if r.bitIndex < 63 then
      (none, some { r with i := r.i + 1, bitIndex := r.bitIndex + 1, flipMask := flipMask })
    else
      let nextSequence := r.start + r.i + 1
      (some (r.availabilityIndex, flipMask), some
        { r with
          i := r.i + 1
          availabilityIndex := (R.calculateAvailabilityIndices nextSequence).1
          bitIndex := 0
          flipMask := 0#64 })
  else if r.flipMask > 0 then (some (r.availabilityIndex, r.flipMask), none)
  else (none, none)

/-- The sequences of the range whose bits a `fetch_xor` flips. -/
def committed (R : RingSize) (r : PublishRange) (index : Nat) (mask : BitVec 64) : List Int :=
  (seqRange r.start (r.start + r.n - 1)).filter fun s =>
    let (availabilityIndex, bitIndex) := R.calculateAvailabilityIndices s
    availabilityIndex == index && mask.getLsbD bitIndex

end PublishRange

/-- `publish_with_ordering(sequence, _)`: the word and the mask. -/
def publishMask (R : RingSize) (sequence : Int) : Nat × BitVec 64 :=
  let (availabilityIndex, bitIndex) := R.calculateAvailabilityIndices sequence
  (availabilityIndex, 1#64 <<< bitIndex)

-- ---------------------------------------------------------------------------
-- A handle
-- ---------------------------------------------------------------------------

/-- Where a handle is. -/
inductive MultiPc (E : Type) where
  /-- Not created yet. -/
  | absent
  /-- Between calls. -/
  | idle
  /-- `next_sequences`: about to load the cursor. -/
  | current (op : Op E)
  /-- `next_sequences`: at the head of the loop. -/
  | check (op : Op E) (current nNext : Int)
  /-- `next_sequences`: inside `consumer_barrier.get_after(current)`. -/
  | getAfter (op : Op E) (current nNext : Int) (g : GetAfter)
  /-- `next_sequences`: with the answer of the consumer barrier. -/
  | freeSlots (op : Op E) (current nNext rear : Int)
  /-- `next_sequences`: about to exchange the cursor. -/
  | compareExchange (op : Op E) (current nNext : Int)
  /-- `apply_update`: inside the closure. -/
  | update (op : Op E)
  /-- `apply_updates`: inside the closure, which took `k` elements so far. -/
  | updates (op : Op E) (iter : MutBatchIter) (k : Nat)
  /-- `apply_update`: about to publish the sequence. -/
  | publish (op : Op E)
  /-- `apply_updates`: inside `publish_range_relaxed`. -/
  | publishRange (op : Op E) (r : PublishRange)
  /-- `drop` of the last handle: about to load the cursor. -/
  | shutdownCurrent
  /-- `drop` of the last handle: about to store `shutdown_at_sequence`. -/
  | shutdownStore (sequence : Int)
  /-- `drop` of the last handle: joining the threads still in the list. -/
  | join (rest : List Nat)
  | dropped
  /-- An addition overflowed. -/
  | overflowed

structure MultiProducer (E : Type) where
  claimedSequence : Int
  sequenceClearOfConsumers : Int
  pc : MultiPc E

namespace MultiProducer

/-- `MultiProducer::new`. -/
def new (R : RingSize) : MultiProducer E where
  claimedSequence := NONE
  sequenceClearOfConsumers := R.sizeI64 - 1
  pc := .idle

/-- The handle `MultiProducer::clone` returns. -/
def cloned : MultiProducer E where
  claimedSequence := NONE
  sequenceClearOfConsumers := 0
  pc := .idle

/-- A name no handle has yet. -/
def none : MultiProducer E where
  claimedSequence := NONE
  sequenceClearOfConsumers := 0
  pc := .absent

/-- With `current` read, compute `n_next` and go to the head of the loop. -/
def loop (p : MultiProducer E) (h : Nat) (op : Op E) (current : Int) :
    MultiProducer E × List (Event E) :=
  match addI64 current op.nI64 with
  | .none => ({ p with pc := .overflowed }, [.overflowed h])
  | .some nNext => ({ p with pc := .check op current nNext }, [])

/-- Return `Ok(n_next)` from `next_sequences` and enter the closure. -/
def claim (p : MultiProducer E) (h : Nat) (op : Op E) (current nNext : Int) :
    MultiProducer E × List (Event E) :=
  let pc :=
    if op.isBatch then
      let upper := nNext
      let lower := upper - op.nI64 + 1
      MultiPc.updates op (.new lower upper) 0
    else .update op
  ({ p with claimedSequence := nNext, pc := pc }, [.claimed h (current + 1) nNext op.update])

/-- Return `Err(EMissingFreeSlots(missing))` from `next_sequences`. -/
def refuse (p : MultiProducer E) (h : Nat) (op : Op E) (missing : Nat) :
    MultiProducer E × List (Event E) :=
  if op.spins then ({ p with pc := .current op }, [.refused h missing])
  else ({ p with pc := .idle }, [.refused h missing, .returned h (op.failure missing)])

/-- With `current` read, `n_next` is computed, unless that overflows. -/
theorem loop_cases {p p' : MultiProducer E} {h : Nat} {op : Op E} {current : Int}
    {es : List (Event E)} (hs : p.loop h op current = (p', es)) :
    (p' = { p with pc := .overflowed } ∧ es = [.overflowed h]) ∨
      (p' = { p with pc := .check op current (current + op.nI64) } ∧ es = [] ∧
        InI64 (current + op.nI64)) := by
  unfold loop at hs
  split at hs
  · exact .inl (Prod.mk.inj hs.symm)
  · rename_i hAdd
    obtain ⟨hNext, rfl⟩ := addI64_eq_some.mp hAdd
    obtain ⟨rfl, rfl⟩ := Prod.mk.inj hs.symm
    exact .inr ⟨rfl, rfl, hNext⟩

/-- A refusal says so. -/
theorem refuse_mem {p p' : MultiProducer E} {h : Nat} {op : Op E} {missing : Nat}
    {es : List (Event E)} (hs : p.refuse h op missing = (p', es)) : .refused h missing ∈ es := by
  unfold refuse at hs
  split at hs <;> obtain ⟨-, rfl⟩ := Prod.mk.inj hs <;> exact List.mem_cons_self ..

end MultiProducer

/-- What the client and the scheduler choose for one handle. -/
inductive HandleAct (E : Type) where
  | call (op : Op E)
  | tick
  /-- The closure unwinds, leaving `event` where it was writing. -/
  | unwind (event : E)

/-- One step of handle `h`; `barrier` is the consumer barrier, `joins` the
threads the last handle joins, `exited` tells which of them have ended. -/
def multiProducerStep (R : RingSize) (barrier : Barrier) (joins : List Nat) (exited : Nat → Bool)
    (h : Nat) (m : Memory E) (p : MultiProducer E) (act : HandleAct E) :
    Option (Memory E × MultiProducer E × List (Event E)) :=
  match p.pc, act with
  | .idle, .call op => some (m, { p with pc := .current op }, [])
  | .current op, .tick => some (m, p.loop h op m.cursor)
  | .check op current nNext, .tick =>
    if p.sequenceClearOfConsumers < nNext then
      some (m, { p with pc := .getAfter op current nNext (barrier.getAfter current) }, [])
    else some (m, { p with pc := .compareExchange op current nNext }, [])
  | .getAfter op current nNext g, .tick =>
    match g.step R m with
    | .inl g' => some (m, { p with pc := .getAfter op current nNext g' }, [])
    | .inr rear => some (m, { p with pc := .freeSlots op current nNext rear }, [])
  | .freeSlots op current nNext rear, .tick =>
    match R.freeSlots current rear with
    | none => some (m, { p with pc := .overflowed }, [.overflowed h])
    | some freeSlots =>
      if freeSlots < op.nI64 then some (m, p.refuse h op (asUnsigned (op.nI64 - freeSlots)))
      else
        match addI64 current freeSlots with
        | none => some (m, { p with pc := .overflowed }, [.overflowed h])
        | some clear =>
          let pc := .compareExchange op current nNext
          some (m, { p with sequenceClearOfConsumers := clear, pc := pc }, [])
  | .compareExchange op current nNext, .tick =>
    if m.cursor = current then some (m.setCursor nNext, p.claim h op current nNext)
    else some (m, p.loop h op m.cursor)
  | .update op, .tick =>
    some (m.updateSlot (R.slot p.claimedSequence) (op.update 0), { p with pc := .publish op },
      [.updated h p.claimedSequence])
  | .update _, .unwind event =>
    some (m.updateSlot (R.slot p.claimedSequence) (fun _ => event), { p with pc := .idle },
      [.unwound h p.claimedSequence p.claimedSequence])
  | .updates op iter k, .tick =>
    match iter.next with
    | none =>
      let lower := p.claimedSequence - op.nI64 + 1
      some (m, { p with pc := .publishRange op (.new R lower op.nI64) }, [])
    | some (sequence, iter') =>
      some (m.updateSlot (R.slot sequence) (op.update k), { p with pc := .updates op iter' (k + 1) },
        [.updated h sequence])
  | .updates op iter _, .unwind event =>
    let es := [.unwound h (p.claimedSequence - op.nI64 + 1) p.claimedSequence]
    match iter.next with
    | none => some (m, { p with pc := .idle }, es)
    | some (sequence, _) =>
      some (m.updateSlot (R.slot sequence) (fun _ => event), { p with pc := .idle }, es)
  | .publish op, .tick =>
    let (index, mask) := publishMask R p.claimedSequence
    some (m.fetchXor index mask, { p with pc := .idle },
      [.published h [p.claimedSequence], .returned h (op.success p.claimedSequence)])
  | .publishRange op r, .tick =>
    match r.step R with
    | (none, some r') => some (m, { p with pc := .publishRange op r' }, [])
    | (some (index, mask), some r') =>
      some (m.fetchXor index mask, { p with pc := .publishRange op r' },
        [.published h (r.committed R index mask)])
    | (some (index, mask), none) =>
      some (m.fetchXor index mask, { p with pc := .idle },
        [.published h (r.committed R index mask), .returned h (op.success p.claimedSequence)])
    | (none, none) =>
      some (m, { p with pc := .idle }, [.returned h (op.success p.claimedSequence)])
  | .shutdownCurrent, .tick => some (m, { p with pc := .shutdownStore (m.cursor + 1) }, [])
  | .shutdownStore sequence, .tick =>
    some (m.storeShutdown sequence, { p with pc := .join joins }, [.shutdownStored sequence])
  | .join (c :: rest), .tick =>
    if exited c then some (m, { p with pc := .join rest }, []) else none
  | .join [], .tick => some (m, { p with pc := .dropped }, [])
  | _, _ => none

/-- After an overflow the thread is stopped. -/
theorem multiProducerStep_overflowed {R : RingSize} {barrier : Barrier} {joins : List Nat}
    {exited : Nat → Bool} {h : Nat} {m : Memory E} {p : MultiProducer E}
    (hPc : p.pc = .overflowed) (act : HandleAct E) :
    multiProducerStep R barrier joins exited h m p act = none := by
  simp [multiProducerStep, hPc]

/-- The steps of a handle, with their guards and effects. -/
inductive MultiStep (R : RingSize) (barrier : Barrier) (joins : List Nat) (exited : Nat → Bool)
    (h : Nat) (m : Memory E) (p : MultiProducer E) :
    HandleAct E → Memory E → MultiProducer E → List (Event E) → Prop
  | call {op} : p.pc = .idle →
      MultiStep R barrier joins exited h m p (.call op) m { p with pc := .current op } []
  | load {op p' es} : p.pc = .current op → p.loop h op m.cursor = (p', es) →
      MultiStep R barrier joins exited h m p .tick m p' es
  | slow {op current nNext} : p.pc = .check op current nNext →
      p.sequenceClearOfConsumers < nNext →
      MultiStep R barrier joins exited h m p .tick m
        { p with pc := .getAfter op current nNext (barrier.getAfter current) } []
  | fast {op current nNext} : p.pc = .check op current nNext →
      nNext ≤ p.sequenceClearOfConsumers →
      MultiStep R barrier joins exited h m p .tick m
        { p with pc := .compareExchange op current nNext } []
  | read {op current nNext g g'} : p.pc = .getAfter op current nNext g → g.step R m = .inl g' →
      MultiStep R barrier joins exited h m p .tick m
        { p with pc := .getAfter op current nNext g' } []
  | answer {op current nNext g rear} : p.pc = .getAfter op current nNext g →
      g.step R m = .inr rear →
      MultiStep R barrier joins exited h m p .tick m
        { p with pc := .freeSlots op current nNext rear } []
  | overflow {op current nNext rear} : p.pc = .freeSlots op current nNext rear →
      MultiStep R barrier joins exited h m p .tick m { p with pc := .overflowed } [.overflowed h]
  | refuse {op current nNext rear free p' es} : p.pc = .freeSlots op current nNext rear →
      R.freeSlots current rear = some free → free < op.nI64 →
      p.refuse h op (asUnsigned (op.nI64 - free)) = (p', es) →
      MultiStep R barrier joins exited h m p .tick m p' es
  | accept {op current nNext rear free clear} : p.pc = .freeSlots op current nNext rear →
      R.freeSlots current rear = some free → op.nI64 ≤ free → addI64 current free = some clear →
      MultiStep R barrier joins exited h m p .tick m
        { p with sequenceClearOfConsumers := clear, pc := .compareExchange op current nNext } []
  | claim {op current nNext p' es} : p.pc = .compareExchange op current nNext →
      m.cursor = current → p.claim h op current nNext = (p', es) →
      MultiStep R barrier joins exited h m p .tick (m.setCursor nNext) p' es
  | retry {op current nNext p' es} : p.pc = .compareExchange op current nNext →
      m.cursor ≠ current → p.loop h op m.cursor = (p', es) →
      MultiStep R barrier joins exited h m p .tick m p' es
  | update {op} : p.pc = .update op →
      MultiStep R barrier joins exited h m p .tick
        (m.updateSlot (R.slot p.claimedSequence) (op.update 0)) { p with pc := .publish op }
        [.updated h p.claimedSequence]
  | unwindUpdate {op event} : p.pc = .update op →
      MultiStep R barrier joins exited h m p (.unwind event)
        (m.updateSlot (R.slot p.claimedSequence) (fun _ => event)) { p with pc := .idle }
        [.unwound h p.claimedSequence p.claimedSequence]
  | updatesEnd {op iter k} : p.pc = .updates op iter k → iter.last < iter.current →
      MultiStep R barrier joins exited h m p .tick m
        { p with pc := .publishRange op (.new R (p.claimedSequence - op.nI64 + 1) op.nI64) } []
  | updatesNext {op iter k} : p.pc = .updates op iter k → iter.current ≤ iter.last →
      MultiStep R barrier joins exited h m p .tick (m.updateSlot (R.slot iter.current) (op.update k))
        { p with pc := .updates op { iter with current := iter.current + 1 } (k + 1) }
        [.updated h iter.current]
  | unwindEnd {op iter k event} : p.pc = .updates op iter k → iter.last < iter.current →
      MultiStep R barrier joins exited h m p (.unwind event) m { p with pc := .idle }
        [.unwound h (p.claimedSequence - op.nI64 + 1) p.claimedSequence]
  | unwindNext {op iter k event} : p.pc = .updates op iter k → iter.current ≤ iter.last →
      MultiStep R barrier joins exited h m p (.unwind event)
        (m.updateSlot (R.slot iter.current) (fun _ => event))
        { p with pc := .idle } [.unwound h (p.claimedSequence - op.nI64 + 1) p.claimedSequence]
  | publish {op index mask} : p.pc = .publish op →
      publishMask R p.claimedSequence = (index, mask) →
      MultiStep R barrier joins exited h m p .tick (m.fetchXor index mask) { p with pc := .idle }
        [.published h [p.claimedSequence], .returned h (op.success p.claimedSequence)]
  | mask {op r r'} : p.pc = .publishRange op r → r.step R = (none, some r') →
      MultiStep R barrier joins exited h m p .tick m { p with pc := .publishRange op r' } []
  | commit {op r r' index mask} : p.pc = .publishRange op r →
      r.step R = (some (index, mask), some r') →
      MultiStep R barrier joins exited h m p .tick (m.fetchXor index mask)
        { p with pc := .publishRange op r' } [.published h (r.committed R index mask)]
  | commitEnd {op r index mask} : p.pc = .publishRange op r →
      r.step R = (some (index, mask), none) →
      MultiStep R barrier joins exited h m p .tick (m.fetchXor index mask) { p with pc := .idle }
        [.published h (r.committed R index mask), .returned h (op.success p.claimedSequence)]
  | rangeEnd {op r} : p.pc = .publishRange op r → r.step R = (none, none) →
      MultiStep R barrier joins exited h m p .tick m { p with pc := .idle }
        [.returned h (op.success p.claimedSequence)]
  | shutdownCurrent : p.pc = .shutdownCurrent →
      MultiStep R barrier joins exited h m p .tick m
        { p with pc := .shutdownStore (m.cursor + 1) } []
  | shutdownStore {sequence} : p.pc = .shutdownStore sequence →
      MultiStep R barrier joins exited h m p .tick (m.storeShutdown sequence)
        { p with pc := .join joins } [.shutdownStored sequence]
  | join {c rest} : p.pc = .join (c :: rest) → exited c = true →
      MultiStep R barrier joins exited h m p .tick m { p with pc := .join rest } []
  | joined : p.pc = .join [] →
      MultiStep R barrier joins exited h m p .tick m { p with pc := .dropped } []

variable {R : RingSize} {barrier : Barrier} {joins : List Nat} {exited : Nat → Bool} {h : Nat}
  {m m' : Memory E} {p p' : MultiProducer E} {act : HandleAct E} {es : List (Event E)}

theorem multiProducerStep_cases
    (hs : multiProducerStep R barrier joins exited h m p act = some (m', p', es)) :
    MultiStep R barrier joins exited h m p act m' p' es := by
  unfold multiProducerStep at hs
  split at hs
  · cases hs
    exact .call ‹_›
  · rw [Option.some.injEq, Prod.mk.injEq] at hs
    obtain ⟨rfl, hLoop⟩ := hs
    exact .load ‹_› hLoop
  · split at hs <;> rename_i hlt <;> cases hs
    · exact .slow ‹_› hlt
    · exact .fast ‹_› (Int.not_lt.mp hlt)
  · split at hs <;> rename_i hg <;> cases hs
    · exact .read ‹_› hg
    · exact .answer ‹_› hg
  · split at hs
    · cases hs
      exact .overflow ‹_›
    · rename_i hFree
      split at hs <;> rename_i hle
      · rw [Option.some.injEq, Prod.mk.injEq] at hs
        obtain ⟨rfl, hRefuse⟩ := hs
        exact .refuse ‹_› hFree hle hRefuse
      · split at hs <;> cases hs
        · exact .overflow ‹_›
        · rename_i hClear
          exact .accept ‹_› hFree (Int.not_lt.mp hle) hClear
  · split at hs <;> rename_i hEq <;> rw [Option.some.injEq, Prod.mk.injEq] at hs <;>
      obtain ⟨rfl, hNext⟩ := hs
    · exact .claim ‹_› hEq hNext
    · exact .retry ‹_› hEq hNext
  · cases hs
    exact .update ‹_›
  · cases hs
    exact .unwindUpdate ‹_›
  · split at hs <;> rename_i hNext <;> cases hs
    · exact .updatesEnd ‹_› (MutBatchIter.next_eq_none.mp hNext)
    · obtain ⟨hle, rfl, rfl⟩ := MutBatchIter.next_eq_some.mp hNext
      exact .updatesNext ‹_› hle
  · dsimp only at hs
    split at hs <;> rename_i hNext <;> cases hs
    · exact .unwindEnd ‹_› (MutBatchIter.next_eq_none.mp hNext)
    · obtain ⟨hle, rfl, -⟩ := MutBatchIter.next_eq_some.mp hNext
      exact .unwindNext ‹_› hle
  · cases hs
    exact .publish ‹_› rfl
  · split at hs <;> rename_i hRange <;> cases hs
    · exact .mask ‹_› hRange
    · exact .commit ‹_› hRange
    · exact .commitEnd ‹_› hRange
    · exact .rangeEnd ‹_› hRange
  · cases hs
    exact .shutdownCurrent ‹_›
  · cases hs
    exact .shutdownStore ‹_›
  · split at hs <;> rename_i hExited <;> cases hs
    exact .join ‹_› hExited
  · cases hs
    exact .joined ‹_›
  · cases hs

/-- A handle that moves exists. -/
theorem MultiStep.present (hs : MultiStep R barrier joins exited h m p act m' p' es) :
    p.pc ≠ .absent := by
  cases hs <;> simp_all

/-- A handle leaves the cursors of the consumers alone. -/
theorem MultiStep.consumerCursors (hs : MultiStep R barrier joins exited h m p act m' p' es) :
    m'.consumerCursors = m.consumerCursors := by
  cases hs <;> rfl

/-- A handle emits no events of consumers. -/
theorem MultiStep.ofProducer (hs : MultiStep R barrier joins exited h m p act m' p' es) :
    ∀ e ∈ es, ¬ e.OfConsumer := by
  have hLoop : ∀ {op : Op E} {current q' es'}, p.loop h op current = (q', es') →
      ∀ e ∈ es', ¬ e.OfConsumer := by
    intro op current q' es' hq
    rcases MultiProducer.loop_cases hq with ⟨-, rfl⟩ | ⟨-, rfl, -⟩ <;> simp [Event.OfConsumer]
  cases hs with
  | load _ hq => exact hLoop hq
  | retry _ _ hq => exact hLoop hq
  | claim _ _ hq =>
    obtain ⟨-, rfl⟩ := Prod.mk.inj hq
    simp [Event.OfConsumer]
  | refuse _ _ _ hq =>
    unfold MultiProducer.refuse at hq
    split at hq <;> obtain ⟨-, rfl⟩ := Prod.mk.inj hq <;> simp [Event.OfConsumer]
  | _ => simp [Event.OfConsumer]

-- ---------------------------------------------------------------------------
-- The shared context
-- ---------------------------------------------------------------------------

/-- All handles, with `SharedProducerCtx` and its mutex. -/
structure SharedProducers (E : Type) where
  handles : Nat → MultiProducer E
  /-- `SharedProducerCtx::counter`. -/
  counter : Int
  /-- The mutex is held, by the last handle in its `drop`. -/
  locked : Bool
  /-- The name of the next clone. -/
  nextHandle : Nat

namespace SharedProducers

/-- One handle, which `build` returns. -/
def new (R : RingSize) : SharedProducers E where
  handles := Function.update (fun _ => .none) 0 (.new R)
  counter := 1
  locked := false
  nextHandle := 1

def setHandle (ps : SharedProducers E) (h : Nat) (p : MultiProducer E) : SharedProducers E :=
  { ps with handles := Function.update ps.handles h p }

/-- `MultiProducer::clone` on an idle handle; `none` when the mutex is held, or
when the counter is so large that the process aborts. -/
def clone (ps : SharedProducers E) (h : Nat) : Option (SharedProducers E) :=
  match (ps.handles h).pc with
  | .idle =>
    if ps.locked || ps.counter > i64Max / 2 then .none
    else
      .some
        { ps.setHandle ps.nextHandle .cloned with
          counter := ps.counter + 1
          nextHandle := ps.nextHandle + 1 }
  | _ => .none

/-- The first part of `MultiProducer::drop` on an idle handle: take the mutex
and decrement the counter. The last handle keeps the mutex. -/
def drop (ps : SharedProducers E) (h : Nat) : Option (SharedProducers E) :=
  match (ps.handles h).pc with
  | .idle =>
    if ps.locked then .none
    else
      let oldCount := ps.counter
      let isLast := oldCount == 1
      let pc := if isLast then .shutdownCurrent else .dropped
      .some
        { ps.setHandle h { ps.handles h with pc := pc } with
          counter := oldCount - 1
          locked := isLast }
  | _ => .none

end SharedProducers

end Calvera
