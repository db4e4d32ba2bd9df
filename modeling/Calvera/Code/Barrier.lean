import Calvera.Code.Basic

/-!
# Calvera — shared memory and barriers

The memory the threads of one disruptor share, and the four implementations of
`trait Barrier` as programs over it. `get_after` of `MultiConsumerBarrier` and
of `MultiProducerBarrier` loads more than one atomic, so a call is a sequence
of steps: `GetAfter` is the state of a call in progress, `GetAfter.step`
performs its next load (or one iteration of its loop), and other threads may
move in between.

Sources: `src/consumer/mod.rs`, `src/producer/uni.rs`,
`src/producer/multi.rs` (`get_after`), `src/_periphery/cursor.rs`.
-/

namespace Calvera

variable {E : Type}

/-- The shared state of a disruptor. `available` is the bitfield of a
`MultiProducerBarrier`; a `UniProducerBarrier` is just the cursor. -/
structure Memory (E : Type) where
  /-- `RingBuffer::slots`. -/
  slots : Nat → E
  /-- The cursor of the producer barrier. -/
  cursor : Int
  /-- `MultiProducerBarrier::available`, one word for 64 slots. -/
  available : Nat → BitVec 64
  shutdownAtSequence : Int
  /-- The cursor of each consumer. -/
  consumerCursors : Nat → Int

namespace Memory

/-- The memory a builder sets up; `factory i` is what the event factory returns
for slot `i`. -/
def init (factory : Nat → E) : Memory E where
  slots := factory
  cursor := NONE
  available := fun _ => ~~~0#64
  shutdownAtSequence := NONE
  consumerCursors := fun _ => NONE

/-- `Cursor::store` on the cursor of consumer `c`. -/
def storeCursor (m : Memory E) (c : Nat) (sequence : Int) : Memory E :=
  { m with consumerCursors := Function.update m.consumerCursors c sequence }

/-- Let `update` change the event in a slot. -/
def updateSlot (m : Memory E) (i : Nat) (update : E → E) : Memory E :=
  { m with slots := Function.update m.slots i (update (m.slots i)) }

/-- `availability_at(index).fetch_xor(mask)`. -/
def fetchXor (m : Memory E) (index : Nat) (mask : BitVec 64) : Memory E :=
  { m with available := Function.update m.available index (m.available index ^^^ mask) }

/-- The availability bit of slot `i`. -/
def bit (m : Memory E) (i : Nat) : Bool := (m.available (i / 64)).getLsbD (i % 64)

end Memory

-- ---------------------------------------------------------------------------
-- Barriers
-- ---------------------------------------------------------------------------

/-- The implementations of `trait Barrier`. A consumer cursor is named by its
consumer. -/
inductive Barrier where
  /-- `UniProducerBarrier`. -/
  | uniProducer
  /-- `MultiProducerBarrier`. -/
  | multiProducer
  /-- `UniConsumerBarrier { cursor }`. -/
  | uniConsumer (cursor : Nat)
  /-- `MultiConsumerBarrier { cursors }`. -/
  | multiConsumer (cursors : List Nat)
  deriving DecidableEq

/-- The local variables of the loop in `MultiProducerBarrier::get_after`. -/
structure Scan where
  availabilityFlag : BitVec 64
  availabilityIndex : Nat
  bitIndex : Nat
  /-- The loaded word, shifted so that bit `0` is the next one to test. -/
  availability : BitVec 64
  highestAvailable : Int
  deriving DecidableEq

/-- The first load of `MultiProducerBarrier::get_after(prev)`. -/
def Scan.start (R : RingSize) (available : Nat → BitVec 64) (prev : Int) : Scan :=
  let (availabilityIndex, bitIndex) := R.calculateAvailabilityIndices prev
  { availabilityFlag := R.calculateAvailabilityFlag prev
    availabilityIndex := availabilityIndex
    bitIndex := bitIndex
    availability := available availabilityIndex >>> bitIndex
    highestAvailable := prev }

/-- One iteration of the loop: the answer, or the variables for the next one. -/
def Scan.step (R : RingSize) (available : Nat → BitVec 64) (v : Scan) : Scan ⊕ Int :=
  if v.availability &&& 1#64 ≠ v.availabilityFlag then
    .inr (v.highestAvailable - 1)
  else
    let highestAvailable := v.highestAvailable + 1
    if v.bitIndex < 63 then
      .inl { v with
        bitIndex := v.bitIndex + 1
        availability := v.availability >>> 1
        highestAvailable := highestAvailable }
    else
      let availabilityIndex := (R.calculateAvailabilityIndices highestAvailable).1
      .inl
        { availability := available availabilityIndex
          availabilityIndex := availabilityIndex
          bitIndex := 0
          -- past the last word the expected parity is that of the next round
          availabilityFlag :=
            if availabilityIndex = 0 then v.availabilityFlag ^^^ 1#64 else v.availabilityFlag
          highestAvailable := highestAvailable }

/-- A call of `get_after` in progress. -/
inductive GetAfter where
  /-- `UniProducerBarrier`: about to load the producer cursor. -/
  | loadProducer
  /-- `UniConsumerBarrier`: about to load the cursor. -/
  | loadConsumer (cursor : Nat)
  /-- `MultiConsumerBarrier`: the fold over the cursors, with those still to load. -/
  | fold (minSequence : Int) (rest : List Nat)
  /-- `MultiProducerBarrier`: about to load the first word. -/
  | scanStart (prev : Int)
  /-- `MultiProducerBarrier`: in the loop. -/
  | scan (v : Scan)

/-- Calling `get_after(prev)`. -/
def Barrier.getAfter (prev : Int) : Barrier → GetAfter
  | .uniProducer => .loadProducer
  | .multiProducer => .scanStart prev
  | .uniConsumer cursor => .loadConsumer cursor
  | .multiConsumer cursors => .fold i64Max cursors

/-- The next step of a call: still in progress, or answered. -/
def GetAfter.step (R : RingSize) (m : Memory E) : GetAfter → GetAfter ⊕ Int
  | .loadProducer => .inr m.cursor
  | .loadConsumer cursor => .inr (m.consumerCursors cursor)
  | .fold minSequence [] => .inr minSequence
  | .fold minSequence (cursor :: rest) =>
    .inl (.fold (min (m.consumerCursors cursor) minSequence) rest)
  | .scanStart prev => .inl (.scan (Scan.start R m.available prev))
  | .scan v =>
    match v.step R m.available with
    | .inl v' => .inl (.scan v')
    | .inr answer => .inr answer

/-- A call run to its end while nothing else moves. -/
def GetAfter.run (R : RingSize) (m : Memory E) : Nat → GetAfter → Option Int
  | 0, _ => none
  | fuel + 1, g =>
    match g.step R m with
    | .inl g' => g'.run R m fuel
    | .inr answer => some answer

end Calvera
