import Calvera.Code.Producer

/-!
# Calvera — the single producer

`UniProducer` (`src/producer/uni.rs`) as a step function on a program counter:
`next_sequences` with its cached bound, `apply_update`, `apply_updates` and
`drop`. One step performs at most one atomic operation. The update closure may
unwind instead of returning; the event it was changing is then left in an
arbitrary state.

`UniStep` lists every possible step, and `uniProducerStep_cases` says the step
function does nothing else.
-/

namespace Calvera

variable {E : Type}

/-- Where the producer is. -/
inductive UniPc (E : Type) where
  /-- Between calls. -/
  | idle
  /-- `next_sequences`: at the test of the cached bound. -/
  | check (op : Op E) (nNext : Int)
  /-- `next_sequences`: inside `consumer_barrier.get_after`. -/
  | getAfter (op : Op E) (nNext : Int) (g : GetAfter)
  /-- `next_sequences`: with the answer of the consumer barrier. -/
  | freeSlots (op : Op E) (nNext rear : Int)
  /-- `apply_update`: inside the closure. -/
  | update (op : Op E)
  /-- `apply_updates`: inside the closure, which took `k` elements so far. -/
  | updates (op : Op E) (iter : MutBatchIter) (k : Nat)
  /-- About to store to the producer barrier. -/
  | publish (op : Op E)
  /-- `drop`: about to store `shutdown_at_sequence`. -/
  | shutdown
  /-- `drop`: joining the threads still in the list. -/
  | join (rest : List Nat)
  | dropped
  /-- An addition overflowed. -/
  | overflowed

structure UniProducer (E : Type) where
  /-- Next sequence to publish. -/
  sequence : Int
  sequenceClearOfConsumers : Int
  pc : UniPc E

/-- `UniProducer::new`. -/
def UniProducer.new (R : RingSize) : UniProducer E where
  sequence := 0
  sequenceClearOfConsumers := R.sizeI64 - 1
  pc := .idle

/-- What the client and the scheduler choose. -/
inductive UniAct (E : Type) where
  | call (op : Op E)
  | tick
  /-- The closure unwinds, leaving `event` where it was writing. -/
  | unwind (event : E)
  | drop

namespace UniProducer

/-- Enter `next_sequences(n)`. -/
def nextSequences (p : UniProducer E) (op : Op E) : UniProducer E × List (Event E) :=
  match subI64 p.sequence 1 with
  | none => ({ p with pc := .overflowed }, [.overflowed 0])
  | some lastPublished =>
    match addI64 lastPublished op.nI64 with
    | none => ({ p with pc := .overflowed }, [.overflowed 0])
    | some nNext => ({ p with pc := .check op nNext }, [])

/-- Return `Ok(n_next)` from `next_sequences` and enter the closure. -/
def claim (p : UniProducer E) (op : Op E) (nNext : Int) : UniProducer E × List (Event E) :=
  let pc :=
    if op.isBatch then
      let lower := p.sequence
      let upper := lower + op.nI64 - 1
      UniPc.updates op (.new lower upper) 0
    else .update op
  ({ p with pc := pc }, [.claimed 0 p.sequence nNext op.update])

/-- Return `Err(EMissingFreeSlots(missing))` from `next_sequences`. -/
def refuse (p : UniProducer E) (op : Op E) (missing : Nat) : UniProducer E × List (Event E) :=
  if op.spins then
    let (p', es) := p.nextSequences op
    (p', .refused 0 missing :: es)
  else ({ p with pc := .idle }, [.refused 0 missing, .returned 0 (op.failure missing)])

/-- Entering `next_sequences` computes `n_next`, unless that overflows. -/
theorem nextSequences_cases {p p' : UniProducer E} {op : Op E} {es : List (Event E)}
    (h : p.nextSequences op = (p', es)) :
    (p' = { p with pc := .overflowed } ∧ es = [.overflowed 0]) ∨
      (p' = { p with pc := .check op (p.sequence - 1 + op.nI64) } ∧ es = [] ∧
        InI64 (p.sequence - 1) ∧ InI64 (p.sequence - 1 + op.nI64)) := by
  unfold nextSequences at h
  split at h
  · exact .inl (Prod.mk.inj h.symm)
  · rename_i hSub
    obtain ⟨hLast, rfl⟩ := subI64_eq_some.mp hSub
    split at h
    · exact .inl (Prod.mk.inj h.symm)
    · rename_i hAdd
      obtain ⟨hNext, rfl⟩ := addI64_eq_some.mp hAdd
      obtain ⟨rfl, rfl⟩ := Prod.mk.inj h.symm
      exact .inr ⟨rfl, rfl, hLast, hNext⟩

end UniProducer

/-- One step of the producer; `barrier` is its consumer barrier, `handles` the
threads it joins, `exited` tells which of them have ended. -/
def uniProducerStep (R : RingSize) (barrier : Barrier) (handles : List Nat) (exited : Nat → Bool)
    (m : Memory E) (p : UniProducer E) (act : UniAct E) :
    Option (Memory E × UniProducer E × List (Event E)) :=
  match p.pc, act with
  | .idle, .call op => some (m, p.nextSequences op)
  | .check op nNext, .tick =>
    if p.sequenceClearOfConsumers < nNext then
      let lastPublished := p.sequence - 1
      some (m, { p with pc := .getAfter op nNext (barrier.getAfter lastPublished) }, [])
    else some (m, p.claim op nNext)
  | .getAfter op nNext g, .tick =>
    match g.step R m with
    | .inl g' => some (m, { p with pc := .getAfter op nNext g' }, [])
    | .inr rear => some (m, { p with pc := .freeSlots op nNext rear }, [])
  | .freeSlots op nNext rear, .tick =>
    let lastPublished := p.sequence - 1
    match R.freeSlots lastPublished rear with
    | none => some (m, { p with pc := .overflowed }, [.overflowed 0])
    | some freeSlots =>
      if freeSlots < op.nI64 then some (m, p.refuse op (asUnsigned (op.nI64 - freeSlots)))
      else
        match addI64 lastPublished freeSlots with
        | none => some (m, { p with pc := .overflowed }, [.overflowed 0])
        | some clear => some (m, { p with sequenceClearOfConsumers := clear }.claim op nNext)
  | .update op, .tick =>
    some (m.updateSlot (R.slot p.sequence) (op.update 0), { p with pc := .publish op },
      [.updated 0 p.sequence])
  | .update _, .unwind event =>
    some (m.updateSlot (R.slot p.sequence) (fun _ => event), { p with pc := .idle },
      [.unwound 0 p.sequence p.sequence])
  | .updates op iter k, .tick =>
    match iter.next with
    | none => some (m, { p with pc := .publish op }, [])
    | some (sequence, iter') =>
      some (m.updateSlot (R.slot sequence) (op.update k), { p with pc := .updates op iter' (k + 1) },
        [.updated 0 sequence])
  | .updates op iter _, .unwind event =>
    let es := [.unwound 0 p.sequence (p.sequence + op.nI64 - 1)]
    match iter.next with
    | none => some (m, { p with pc := .idle }, es)
    | some (sequence, _) =>
      some (m.updateSlot (R.slot sequence) (fun _ => event), { p with pc := .idle }, es)
  | .publish op, .tick =>
    let upper := p.sequence + op.nI64 - 1
    some (m.setCursor upper, { p with sequence := p.sequence + op.nI64, pc := .idle },
      [.published 0 (seqRange p.sequence upper), .returned 0 (op.success upper)])
  | .idle, .drop => some (m, { p with pc := .shutdown }, [])
  | .shutdown, .tick =>
    some (m.storeShutdown p.sequence, { p with pc := .join handles }, [.shutdownStored p.sequence])
  | .join (c :: rest), .tick =>
    if exited c then some (m, { p with pc := .join rest }, []) else none
  | .join [], .tick => some (m, { p with pc := .dropped }, [])
  | _, _ => none

/-- After an overflow the thread is stopped. -/
theorem uniProducerStep_overflowed {R : RingSize} {barrier : Barrier} {handles : List Nat}
    {exited : Nat → Bool} {m : Memory E} {p : UniProducer E} (hPc : p.pc = .overflowed)
    (act : UniAct E) : uniProducerStep R barrier handles exited m p act = none := by
  simp [uniProducerStep, hPc]

/-- The steps of the producer, with their guards and effects. -/
inductive UniStep (R : RingSize) (barrier : Barrier) (handles : List Nat) (exited : Nat → Bool)
    (m : Memory E) (p : UniProducer E) : UniAct E → Memory E → UniProducer E → List (Event E) → Prop
  | call {op p' es} : p.pc = .idle → p.nextSequences op = (p', es) →
      UniStep R barrier handles exited m p (.call op) m p' es
  | slow {op nNext} : p.pc = .check op nNext → p.sequenceClearOfConsumers < nNext →
      UniStep R barrier handles exited m p .tick m
        { p with pc := .getAfter op nNext (barrier.getAfter (p.sequence - 1)) } []
  | fast {op nNext p' es} : p.pc = .check op nNext → nNext ≤ p.sequenceClearOfConsumers →
      p.claim op nNext = (p', es) → UniStep R barrier handles exited m p .tick m p' es
  | read {op nNext g g'} : p.pc = .getAfter op nNext g → g.step R m = .inl g' →
      UniStep R barrier handles exited m p .tick m { p with pc := .getAfter op nNext g' } []
  | answer {op nNext g rear} : p.pc = .getAfter op nNext g → g.step R m = .inr rear →
      UniStep R barrier handles exited m p .tick m { p with pc := .freeSlots op nNext rear } []
  | overflow {op nNext rear} : p.pc = .freeSlots op nNext rear →
      UniStep R barrier handles exited m p .tick m { p with pc := .overflowed } [.overflowed 0]
  | refuse {op nNext rear free p' es} : p.pc = .freeSlots op nNext rear →
      R.freeSlots (p.sequence - 1) rear = some free → free < op.nI64 →
      p.refuse op (asUnsigned (op.nI64 - free)) = (p', es) →
      UniStep R barrier handles exited m p .tick m p' es
  | accept {op nNext rear free clear p' es} : p.pc = .freeSlots op nNext rear →
      R.freeSlots (p.sequence - 1) rear = some free → op.nI64 ≤ free →
      addI64 (p.sequence - 1) free = some clear →
      { p with sequenceClearOfConsumers := clear }.claim op nNext = (p', es) →
      UniStep R barrier handles exited m p .tick m p' es
  | update {op} : p.pc = .update op →
      UniStep R barrier handles exited m p .tick (m.updateSlot (R.slot p.sequence) (op.update 0))
        { p with pc := .publish op } [.updated 0 p.sequence]
  | unwindUpdate {op event} : p.pc = .update op →
      UniStep R barrier handles exited m p (.unwind event)
        (m.updateSlot (R.slot p.sequence) (fun _ => event))
        { p with pc := .idle } [.unwound 0 p.sequence p.sequence]
  | updatesEnd {op iter k} : p.pc = .updates op iter k → iter.last < iter.current →
      UniStep R barrier handles exited m p .tick m { p with pc := .publish op } []
  | updatesNext {op iter k} : p.pc = .updates op iter k → iter.current ≤ iter.last →
      UniStep R barrier handles exited m p .tick (m.updateSlot (R.slot iter.current) (op.update k))
        { p with pc := .updates op { iter with current := iter.current + 1 } (k + 1) }
        [.updated 0 iter.current]
  | unwindEnd {op iter k event} : p.pc = .updates op iter k → iter.last < iter.current →
      UniStep R barrier handles exited m p (.unwind event) m { p with pc := .idle }
        [.unwound 0 p.sequence (p.sequence + op.nI64 - 1)]
  | unwindNext {op iter k event} : p.pc = .updates op iter k → iter.current ≤ iter.last →
      UniStep R barrier handles exited m p (.unwind event)
        (m.updateSlot (R.slot iter.current) (fun _ => event))
        { p with pc := .idle } [.unwound 0 p.sequence (p.sequence + op.nI64 - 1)]
  | publish {op} : p.pc = .publish op →
      UniStep R barrier handles exited m p .tick (m.setCursor (p.sequence + op.nI64 - 1))
        { p with sequence := p.sequence + op.nI64, pc := .idle }
        [.published 0 (seqRange p.sequence (p.sequence + op.nI64 - 1)),
          .returned 0 (op.success (p.sequence + op.nI64 - 1))]
  | drop : p.pc = .idle → UniStep R barrier handles exited m p .drop m { p with pc := .shutdown } []
  | shutdown : p.pc = .shutdown →
      UniStep R barrier handles exited m p .tick (m.storeShutdown p.sequence)
        { p with pc := .join handles } [.shutdownStored p.sequence]
  | join {c rest} : p.pc = .join (c :: rest) → exited c = true →
      UniStep R barrier handles exited m p .tick m { p with pc := .join rest } []
  | joined : p.pc = .join [] →
      UniStep R barrier handles exited m p .tick m { p with pc := .dropped } []

variable {R : RingSize} {barrier : Barrier} {handles : List Nat} {exited : Nat → Bool}
  {m m' : Memory E} {p p' : UniProducer E} {act : UniAct E} {es : List (Event E)}

theorem uniProducerStep_cases
    (h : uniProducerStep R barrier handles exited m p act = some (m', p', es)) :
    UniStep R barrier handles exited m p act m' p' es := by
  unfold uniProducerStep at h
  split at h
  · rw [Option.some.injEq, Prod.mk.injEq] at h
    obtain ⟨rfl, hCall⟩ := h
    exact .call ‹_› hCall
  · split at h <;> rename_i hlt
    · cases h
      exact .slow ‹_› hlt
    · rw [Option.some.injEq, Prod.mk.injEq] at h
      obtain ⟨rfl, hClaim⟩ := h
      exact .fast ‹_› (Int.not_lt.mp hlt) hClaim
  · split at h <;> rename_i hg <;> cases h
    · exact .read ‹_› hg
    · exact .answer ‹_› hg
  · dsimp only at h
    split at h
    · cases h
      exact .overflow ‹_›
    · rename_i hFree
      split at h <;> rename_i hle
      · rw [Option.some.injEq, Prod.mk.injEq] at h
        obtain ⟨rfl, hRefuse⟩ := h
        exact .refuse ‹_› hFree hle hRefuse
      · split at h
        · cases h
          exact .overflow ‹_›
        · rename_i hClear
          rw [Option.some.injEq, Prod.mk.injEq] at h
          obtain ⟨rfl, hClaim⟩ := h
          exact .accept ‹_› hFree (Int.not_lt.mp hle) hClear hClaim
  · cases h
    exact .update ‹_›
  · cases h
    exact .unwindUpdate ‹_›
  · split at h <;> rename_i hNext <;> cases h
    · exact .updatesEnd ‹_› (MutBatchIter.next_eq_none.mp hNext)
    · obtain ⟨hle, rfl, rfl⟩ := MutBatchIter.next_eq_some.mp hNext
      exact .updatesNext ‹_› hle
  · dsimp only at h
    split at h <;> rename_i hNext <;> cases h
    · exact .unwindEnd ‹_› (MutBatchIter.next_eq_none.mp hNext)
    · obtain ⟨hle, rfl, -⟩ := MutBatchIter.next_eq_some.mp hNext
      exact .unwindNext ‹_› hle
  · cases h
    exact .publish ‹_›
  · cases h
    exact .drop ‹_›
  · cases h
    exact .shutdown ‹_›
  · split at h <;> rename_i hExited <;> cases h
    exact .join ‹_› hExited
  · cases h
    exact .joined ‹_›
  · cases h

/-- The producer leaves the cursors of the consumers alone. -/
theorem UniStep.consumerCursors (h : UniStep R barrier handles exited m p act m' p' es) :
    m'.consumerCursors = m.consumerCursors := by
  cases h <;> rfl

/-- The producer emits no events of consumers. -/
theorem UniStep.ofProducer (h : UniStep R barrier handles exited m p act m' p' es) :
    ∀ e ∈ es, ¬ e.OfConsumer := by
  have hNext : ∀ {q : UniProducer E} {op : Op E} {q' es'}, q.nextSequences op = (q', es') →
      ∀ e ∈ es', ¬ e.OfConsumer := by
    intro q op q' es' hq
    rcases UniProducer.nextSequences_cases hq with ⟨-, rfl⟩ | ⟨-, rfl, -⟩ <;> simp [Event.OfConsumer]
  have hClaim : ∀ {q : UniProducer E} {op : Op E} {nNext q' es'}, q.claim op nNext = (q', es') →
      ∀ e ∈ es', ¬ e.OfConsumer := by
    intro q op nNext q' es' hq
    obtain ⟨-, rfl⟩ := Prod.mk.inj hq
    simp [Event.OfConsumer]
  cases h with
  | call _ hq => exact hNext hq
  | fast _ _ hq => exact hClaim hq
  | accept _ _ _ _ hq => exact hClaim hq
  | refuse _ _ _ hq =>
    unfold UniProducer.refuse at hq
    split at hq
    · obtain ⟨-, rfl⟩ := Prod.mk.inj hq
      simpa [Event.OfConsumer] using hNext rfl
    · obtain ⟨-, rfl⟩ := Prod.mk.inj hq
      simp [Event.OfConsumer]
  | _ => simp [Event.OfConsumer]

end Calvera
