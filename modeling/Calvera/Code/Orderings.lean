import Calvera.Code.System
import Calvera.Lib.ReleaseAcquire

/-!
# Calvera — the memory orderings

The disruptor on release/acquire memory. The threads take the steps of
`UniSystem` and `MultiSystem`, but a load may find an old value: `loads` names
the atomic that a step loads, the scheduler chooses which of its writes is
found, and the step runs on the newest values with that one replaced.
`performs` names what else a step does: a store, a read-modify-write, a fence
or an access to a slot, with its ordering.

The source chooses the orderings in eight places, the fields of `Orderings`.
All other loads and stores are relaxed there, and here.

Between its steps a thread may access a slot any number of times, as long as it
is inside the closure or the guard that lends the event (`MayRead`, `MayWrite`).
What synchronizes besides, the mutex of the handles and the joining of threads,
is left out: it could only add to what happens before what.
-/

namespace Calvera

open Calvera.Lib Calvera.Lib.ReleaseAcquire

variable {E P A Q : Type}

-- ---------------------------------------------------------------------------
-- Atomics and threads
-- ---------------------------------------------------------------------------

/-- The atomics of a disruptor. -/
inductive Loc where
  /-- The cursor of the producer barrier. -/
  | cursor
  /-- A word of `MultiProducerBarrier::available`. -/
  | word (index : Nat)
  | shutdownAtSequence
  /-- The cursor of consumer `c`. -/
  | consumerCursor (c : Nat)
  deriving DecidableEq

@[reducible] def Loc.Value : Loc → Type
  | .word _ => BitVec 64
  | .cursor | .shutdownAtSequence | .consumerCursor _ => Int

/-- The values a builder sets up. -/
def Loc.initial : (x : Loc) → x.Value
  | .word _ => ~~~0#64
  | .cursor | .shutdownAtSequence | .consumerCursor _ => NONE

/-- The memory with these values of the atomics. -/
def Memory.ofValues (slots : Nat → E) (value : (x : Loc) → x.Value) : Memory E where
  slots := slots
  cursor := value .cursor
  available index := value (.word index)
  shutdownAtSequence := value .shutdownAtSequence
  consumerCursors c := value (.consumerCursor c)

/-- The threads; the single producer is handle `0`. -/
inductive Party where
  | consumer (c : Nat)
  | handle (h : Nat)
  deriving DecidableEq

/-- The consumer a thread is. -/
def Party.consumer? : Party → Option Nat
  | .consumer c => some c
  | .handle _ => none

abbrev AtomicOp := ReleaseAcquire.Op Loc Loc.Value Int

abbrev AtomicMachine := Machine Party Loc Loc.Value Int

-- ---------------------------------------------------------------------------
-- Orderings
-- ---------------------------------------------------------------------------

/-- The orderings and fences, each of which could be missing. -/
structure Orderings where
  /-- `Cursor::store`: `Release`. -/
  cursorStore : Bool
  /-- `Cursor::compare_exchange`: `AcqRel`. -/
  cursorExchange : Bool
  /-- `wait_for_events`: `fence(Acquire)`. -/
  waitFence : Bool
  /-- `EventPoller::poll_take`: `fence(Acquire)`. -/
  pollFence : Bool
  /-- `UniProducer::next_sequences`: `fence(Acquire)`. -/
  uniFence : Bool
  /-- `MultiProducer::next_sequences`: `fence(Acquire)`. -/
  multiFence : Bool
  /-- `MultiProducer::apply_updates`: `fence(Release)`. -/
  batchFence : Bool
  /-- `MultiProducerBarrier::publish`: `Release`. -/
  publish : Bool

/-- The source has all of them. -/
def Orderings.source : Orderings := ⟨true, true, true, true, true, true, true, true⟩

/-- A fence, if it is there. -/
def fence (present : Bool) (op : AtomicOp) : Option AtomicOp := if present then some op else none

-- ---------------------------------------------------------------------------
-- What a step loads
-- ---------------------------------------------------------------------------

/-- The atomic that the next step of `get_after` loads. -/
def GetAfter.loads (R : RingSize) : GetAfter → Option Loc
  | .loadProducer => some .cursor
  | .loadConsumer cursor => some (.consumerCursor cursor)
  | .fold _ [] => none
  | .fold _ (cursor :: _) => some (.consumerCursor cursor)
  | .scanStart prev => some (.word (R.calculateAvailabilityIndices prev).1)
  | .scan v =>
    if v.availability &&& 1#64 = v.availabilityFlag ∧ ¬ v.bitIndex < 63 then
      some (.word (R.calculateAvailabilityIndices (v.highestAvailable + 1)).1)
    else none

def ConsumerPc.loads (R : RingSize) (c : Nat) : ConsumerPc → Option Loc
  | .waitForEvents _ g | .getAvailable _ _ g => g.loads R
  | .checkShutdown _ | .readShutdown _ _ => some .shutdownAtSequence
  | .idle _ => some (.consumerCursor c)
  | _ => none

def UniPc.loads (R : RingSize) : UniPc E → Option Loc
  | .getAfter _ _ g => g.loads R
  | _ => none

/-- A read-modify-write loads as well. -/
def MultiProducer.loads (R : RingSize) (p : MultiProducer E) : Option Loc :=
  match p.pc with
  | .current _ | .compareExchange _ _ _ | .shutdownCurrent => some .cursor
  | .getAfter _ _ _ g => g.loads R
  | .publish _ => some (.word (publishMask R p.claimedSequence).1)
  | .publishRange _ r =>
    match (r.step R).1 with
    | .some (index, _) => some (.word index)
    | .none => .none
  | _ => .none

-- ---------------------------------------------------------------------------
-- What a step performs
-- ---------------------------------------------------------------------------

/-- A step of a consumer to `pc'`, after which the memory is `m`. -/
def ConsumerPc.performs (o : Orderings) (c : Nat) (m : Memory E) (pc pc' : ConsumerPc) :
    Option AtomicOp :=
  match pc, pc' with
  | .waitForEvents _ _, .batch _ _ => fence o.waitFence .acquireFence
  | .batch sequence _, .handler _ _ => some (.access sequence false)
  | .batch _ _, .waitForEvents _ _ =>
    some (.store (.consumerCursor c) (m.consumerCursors c) o.cursorStore)
  | .getAvailable _ _ _, .guard _ _ => fence o.pollFence .acquireFence
  | .guard sequence _, .guard sequence' _ =>
    if sequence < sequence' then some (.access sequence false) else none
  | .guard _ _, .idle _ =>
    some (.store (.consumerCursor c) (m.consumerCursors c) o.cursorStore)
  | _, _ => none

/-- A step of the single producer to `p'`. -/
def UniProducer.performs (o : Orderings) (m : Memory E) (p p' : UniProducer E) :
    Option AtomicOp :=
  match p.pc, p'.pc with
  | .freeSlots _ _ _, .update _ | .freeSlots _ _ _, .updates _ _ _ =>
    fence o.uniFence .acquireFence
  | .update _, _ => some (.access p.sequence true)
  | .updates _ iter _, _ =>
    if iter.current ≤ iter.last then some (.access iter.current true) else none
  | .publish _, _ => some (.store .cursor m.cursor o.cursorStore)
  | .shutdown, _ => some (.store .shutdownAtSequence m.shutdownAtSequence false)
  | _, _ => none

/-- A step of a handle to `p'`. -/
def MultiProducer.performs (o : Orderings) (R : RingSize) (m : Memory E)
    (p p' : MultiProducer E) : Option AtomicOp :=
  match p.pc, p'.pc with
  | .freeSlots _ _ _ _, .compareExchange _ _ _ => fence o.multiFence .acquireFence
  | .compareExchange _ _ _, .update _ | .compareExchange _ _ _, .updates _ _ _ =>
    some (.exchange .cursor m.cursor o.cursorExchange o.cursorExchange)
  | .update _, _ => some (.access p.claimedSequence true)
  | .updates _ _ _, .publishRange _ _ => fence o.batchFence .releaseFence
  | .updates _ iter _, _ =>
    if iter.current ≤ iter.last then some (.access iter.current true) else .none
  | .publish _, _ =>
    let index := (publishMask R p.claimedSequence).1
    some (.exchange (.word index) (m.available index) false o.publish)
  | .publishRange _ r, _ =>
    match (r.step R).1 with
    | .some (index, _) => some (.exchange (.word index) (m.available index) false false)
    | .none => .none
  | .shutdownStore _, _ => some (.store .shutdownAtSequence m.shutdownAtSequence false)
  | _, _ => .none

-- ---------------------------------------------------------------------------
-- Events that are lent
-- ---------------------------------------------------------------------------

/-- The handler has the event, or the guard has yielded it. -/
def ConsumerPc.MayRead (cursor t : Int) : ConsumerPc → Prop
  | .handler sequence _ => t = sequence
  | .guard sequence _ => cursor < t ∧ t < sequence
  | _ => False

instance (cursor t : Int) : (pc : ConsumerPc) → Decidable (pc.MayRead cursor t)
  | .handler _ _ => inferInstanceAs (Decidable (_ = _))
  | .guard _ _ => inferInstanceAs (Decidable (_ ∧ _))
  | .waitForEvents _ _ | .checkShutdown _ | .batch _ _ | .exited | .idle _ | .readShutdown _ _
  | .getAvailable _ _ _ => inferInstanceAs (Decidable False)

/-- The closure has the event, or its iterator has yielded it. -/
def UniPc.MayWrite (sequence t : Int) : UniPc E → Prop
  | .update _ => t = sequence
  | .updates _ iter _ => sequence ≤ t ∧ t < iter.current
  | _ => False

instance (sequence t : Int) : (pc : UniPc E) → Decidable (pc.MayWrite sequence t)
  | .update _ => inferInstanceAs (Decidable (_ = _))
  | .updates _ _ _ => inferInstanceAs (Decidable (_ ∧ _))
  | .idle | .check _ _ | .getAfter _ _ _ | .freeSlots _ _ _ | .publish _ | .shutdown | .join _
  | .dropped | .overflowed => inferInstanceAs (Decidable False)

/-- The same for a handle. -/
def MultiPc.MayWrite (claimedSequence t : Int) : MultiPc E → Prop
  | .update _ => t = claimedSequence
  | .updates op iter _ => claimedSequence - op.nI64 < t ∧ t < iter.current
  | _ => False

instance (claimedSequence t : Int) : (pc : MultiPc E) → Decidable (pc.MayWrite claimedSequence t)
  | .update _ => inferInstanceAs (Decidable (_ = _))
  | .updates _ _ _ => inferInstanceAs (Decidable (_ ∧ _))
  | .absent | .idle | .current _ | .check _ _ _ | .getAfter _ _ _ _ | .freeSlots _ _ _ _
  | .compareExchange _ _ _ | .publish _ | .publishRange _ _ | .shutdownCurrent | .shutdownStore _
  | .join _ | .dropped | .overflowed => inferInstanceAs (Decidable False)

-- ---------------------------------------------------------------------------
-- The system
-- ---------------------------------------------------------------------------

/-- A disruptor with producer side `P`; the atomics are in the machine. -/
structure WeakSystem (P E : Type) where
  machine : AtomicMachine
  slots : Nat → E
  consumers : Nat → ConsumerPc
  producer : P

/-- An action: a step that finds write number `k`, if it loads an atomic, or
one more access of a thread to an event that is lent to it. -/
inductive WeakAct (A : Type) where
  | step (act : Act A) (k : Nat)
  | access (θ : Party) (t : Int)

/-- The client restricts the disruptor's actions as before. -/
def WeakAct.ok (ok : Act A → Prop) : WeakAct A → Prop
  | .step act _ => ok act
  | .access _ _ => True

instance WeakAct.decidableOk (ok : Act A → Prop) [DecidablePred ok] :
    (act : WeakAct A) → Decidable (act.ok ok)
  | .step act _ => inferInstanceAs (Decidable (ok act))
  | .access _ _ => isTrue trivial

namespace WeakSystem

/-- The state in which `build` leaves everything. -/
def init (w : Wiring) (factory : Nat → E) (producer : P) : WeakSystem P E where
  machine := .init Loc.initial
  slots := factory
  consumers := (System.init w factory producer).consumers
  producer := producer

/-- The newest values. -/
def memory (s : WeakSystem P E) : Memory E := .ofValues s.slots s.machine.newest

/-- The system as it is with the newest values. -/
def latest (s : WeakSystem P E) : System P E := ⟨s.memory, s.consumers, s.producer⟩

/-- The memory a thread is presented with when it finds write number `k`. -/
def load (s : WeakSystem P E) (θ : Party) (k : Nat) : Option Loc → Option (AtomicMachine × Memory E)
  | none => some (s.machine, s.memory)
  | some x =>
    match s.machine.load θ x k with
    | none => none
    | some M =>
      some (M, .ofValues s.slots (Function.update s.machine.newest x (M.value θ x)))

/-- A step of one thread: load, run the step on the memory presented, and
perform what the step does. -/
def run (s : WeakSystem P E) (θ : Party) (k : Nat) (loads : Option Loc)
    (step : Memory E → Option (Memory E × Q × List (Event E)))
    (performs : Memory E → Q → Option AtomicOp) :
    Option (WeakSystem P E × Q × List (Event E)) :=
  match s.load θ k loads with
  | none => none
  | some (M, m) =>
    match step m with
    | none => none
    | some (m', q, es) =>
      match M.perform? θ (performs m' q) with
      | none => none
      | some M' => some ({ s with machine := M', slots := m'.slots }, q, es)

/-- A step of consumer `c`. -/
def stepConsumer (o : Orderings) (R : RingSize) (w : Wiring) (s : WeakSystem P E) (c k : Nat)
    (act : ConsumerAct) : Option (WeakSystem P E × List (Event E)) :=
  match w.consumers[c]? with
  | none => none
  | some spec =>
    let pc := s.consumers c
    match s.run (.consumer c) k (pc.loads R c)
      (fun m => consumerStep R spec.dependentBarrier c m pc act) (pc.performs o c) with
    | none => none
    | some (s', pc', es) =>
      some ({ s' with consumers := Function.update s.consumers c pc' }, es)

/-- An access to the slot of sequence `t`. -/
def access (s : WeakSystem P E) (θ : Party) (t : Int) (isWrite : Bool) :
    Option (WeakSystem P E × List (Event E)) :=
  match s.machine.perform θ (.access t isWrite) with
  | none => none
  | some M => some ({ s with machine := M }, [])

/-- An access of consumer `c`. -/
def accessConsumer (w : Wiring) (s : WeakSystem P E) (c : Nat) (t : Int) :
    Option (WeakSystem P E × List (Event E)) :=
  let cursor := s.machine.value (.consumer c) (.consumerCursor c)
  if c < w.consumers.length ∧ (s.consumers c).MayRead cursor t then s.access (.consumer c) t false
  else none

end WeakSystem

/-- A single-producer disruptor on release/acquire memory. -/
abbrev WeakUniSystem (E : Type) := WeakSystem (UniProducer E) E

namespace WeakUniSystem

def init (R : RingSize) (w : Wiring) (factory : Nat → E) : WeakUniSystem E :=
  WeakSystem.init w factory (.new R)

def step (o : Orderings) (R : RingSize) (w : Wiring) (s : WeakUniSystem E) :
    WeakAct (UniAct E) → Option (WeakUniSystem E × List (Event E))
  | .step (.consumer c act) k => s.stepConsumer o R w c k act
  | .step (.producer act) k =>
    match s.run (.handle 0) k (s.producer.pc.loads R)
      (fun m => uniProducerStep R w.consumerBarrier w.consumerHandles
        (fun c => (s.consumers c).isExited) m s.producer act) (s.producer.performs o) with
    | none => none
    | some (s', p, es) => some ({ s' with producer := p }, es)
  | .access (.consumer c) t => s.accessConsumer w c t
  | .access (.handle h) t =>
    if h = 0 ∧ s.producer.pc.MayWrite s.producer.sequence t then s.access (.handle h) t true
    else none

end WeakUniSystem

/-- A multi-producer disruptor on release/acquire memory. -/
abbrev WeakMultiSystem (E : Type) := WeakSystem (SharedProducers E) E

namespace WeakMultiSystem

def init (R : RingSize) (w : Wiring) (factory : Nat → E) : WeakMultiSystem E :=
  WeakSystem.init w factory (.new R)

def step (o : Orderings) (R : RingSize) (w : Wiring) (s : WeakMultiSystem E) :
    WeakAct (MultiAct E) → Option (WeakMultiSystem E × List (Event E))
  | .step (.consumer c act) k => s.stepConsumer o R w c k act
  | .step (.producer (.handle h act)) k =>
    let p := s.producer.handles h
    match s.run (.handle h) k (p.loads R)
      (fun m => multiProducerStep R w.consumerBarrier w.consumerHandles
        (fun c => (s.consumers c).isExited) h m p act) (p.performs o R) with
    | none => none
    | some (s', p', es) => some ({ s' with producer := s.producer.setHandle h p' }, es)
  | .step (.producer (.clone h)) _ =>
    match s.producer.clone h with
    | none => none
    | some producer => some ({ s with producer := producer }, [])
  | .step (.producer (.drop h)) _ =>
    match s.producer.drop h with
    | none => none
    | some producer => some ({ s with producer := producer }, [])
  | .access (.consumer c) t => s.accessConsumer w c t
  | .access (.handle h) t =>
    let p := s.producer.handles h
    if p.pc.MayWrite p.claimedSequence t then s.access (.handle h) t true else none

end WeakMultiSystem

/-- A run of a single-producer disruptor on release/acquire memory. -/
abbrev WeakUniRun (o : Orderings) (R : RingSize) (w : Wiring) (factory : Nat → E) :
    List (Event E) → WeakUniSystem E → Prop :=
  Lib.Run (WeakUniSystem.step o R w) (WeakAct.ok UniAct.InRange) (WeakUniSystem.init R w factory)

/-- A run of a multi-producer disruptor on release/acquire memory. -/
abbrev WeakMultiRun (o : Orderings) (R : MultiRingSize) (w : Wiring) (factory : Nat → E) :
    List (Event E) → WeakMultiSystem E → Prop :=
  Lib.Run (WeakMultiSystem.step o R.toRingSize w) (WeakAct.ok MultiAct.InRange)
    (WeakMultiSystem.init R.toRingSize w factory)

/-- No access to a slot races with another. -/
def WeakSystem.RaceFree (R : RingSize) (s : WeakSystem P E) : Prop :=
  Ordered (fun t t' => R.slot t = R.slot t') s.machine.log

end Calvera
