import Calvera.Code.Barrier

/-!
# Calvera — the builders

`UPBuilder` and `MPBuilder` (`src/builder/mod.rs`, `uni.rs`, `multi.rs`) wire
consumers to barriers. The two builders have the same methods and differ in
the producer barrier only, so they are one `DisruptorBuilder` here, started by
`buildUniProducerUnchecked` or `buildMultiProducerUnchecked`. The typestate
`NC`/`SC`/`MC` is an index of the type, and each method is defined for the
states that have it. `unwrap` on `None` and `remove(0)` on an empty vector
panic: the methods return `none` there.

A consumer is named by the position in which it was added; its cursor and its
thread have the same name. Thread names and core affinities are left out, and
so is the wait strategy: nothing that is modelled reads them.

A `Chain` is a chain of builder calls that the typestate accepts.
-/

namespace Calvera

/-- How a consumer was added. -/
inductive ConsumerKind where
  /-- `handle_events_with`. -/
  | handler
  /-- `handle_events_and_state_with`. -/
  | handlerWithState
  /-- `event_poller`. -/
  | poller
  deriving DecidableEq

/-- A consumer that exists: a spawned thread, or a poller given to the client. -/
structure ConsumerSpec where
  kind : ConsumerKind
  /-- The barrier it waits on. -/
  dependentBarrier : Barrier
  deriving DecidableEq

/-- `BuilderContext`, with the consumers created so far. -/
structure BuilderContext where
  consumers : List ConsumerSpec
  consumerHandles : List Nat
  currentConsumerCursors : Option (List Nat)

namespace BuilderContext

/-- `BuilderContext::new`. -/
def new : BuilderContext where
  consumers := []
  consumerHandles := []
  currentConsumerCursors := some []

/-- `BuilderContext::add_cursor`. -/
def addCursor (ctx : BuilderContext) (cursor : Nat) : Option BuilderContext :=
  match ctx.currentConsumerCursors with
  | none => none
  | some cursors => some { ctx with currentConsumerCursors := some (cursors ++ [cursor]) }

/-- `BuilderContext::add_consumer_and_cursor`. -/
def addConsumerAndCursor (ctx : BuilderContext) (consumerHandle cursor : Nat) :
    Option BuilderContext :=
  { ctx with consumerHandles := ctx.consumerHandles ++ [consumerHandle] }.addCursor cursor

/-- Create a consumer with a new cursor. -/
def create (ctx : BuilderContext) (spec : ConsumerSpec) : BuilderContext :=
  { ctx with consumers := ctx.consumers ++ [spec] }

/-- The name of the next consumer. -/
def nextConsumer (ctx : BuilderContext) : Nat := ctx.consumers.length

end BuilderContext

/-- The typestate markers. -/
inductive BuilderState where
  | NC | SC | MC

/-- `UPBuilder<State, ..>` and `MPBuilder<State, ..>`. -/
structure DisruptorBuilder (state : BuilderState) where
  context : BuilderContext
  producerBarrier : Barrier
  dependentBarrier : Barrier

/-- What `build` assembles: the consumers, the handles of the threads the
producer joins, and the barrier the producer checks. -/
structure Wiring where
  consumers : List ConsumerSpec
  consumerHandles : List Nat
  consumerBarrier : Barrier

/-- `build_uni_producer_unchecked`. -/
def buildUniProducerUnchecked : DisruptorBuilder .NC where
  context := .new
  producerBarrier := .uniProducer
  dependentBarrier := .uniProducer

/-- `build_multi_producer_unchecked`. -/
def buildMultiProducerUnchecked : DisruptorBuilder .NC where
  context := .new
  producerBarrier := .multiProducer
  dependentBarrier := .multiProducer

namespace DisruptorBuilder

variable {state : BuilderState}

/-- `Builder::add_event_handler`: spawn a managed consumer. -/
def addEventHandler (b : DisruptorBuilder state) : Option BuilderContext :=
  let consumer := b.context.nextConsumer
  (b.context.create ⟨.handler, b.dependentBarrier⟩).addConsumerAndCursor consumer consumer

/-- `Builder::add_event_handler_with_state`. -/
def addEventHandlerWithState (b : DisruptorBuilder state) : Option BuilderContext :=
  let consumer := b.context.nextConsumer
  (b.context.create ⟨.handlerWithState, b.dependentBarrier⟩).addConsumerAndCursor consumer consumer

/-- `Builder::get_event_poller`. -/
def getEventPoller (b : DisruptorBuilder state) : Option BuilderContext :=
  let cursor := b.context.nextConsumer
  (b.context.create ⟨.poller, b.dependentBarrier⟩).addCursor cursor

/-- The builder around a changed context, in another typestate. -/
def withContext {state' : BuilderState} (b : DisruptorBuilder state) (ctx : BuilderContext) :
    DisruptorBuilder state' :=
  { context := ctx, producerBarrier := b.producerBarrier, dependentBarrier := b.dependentBarrier }

/-- Add a consumer of the given kind; the typestate it leads to is the caller's. -/
def add {state' : BuilderState} (kind : ConsumerKind) (b : DisruptorBuilder state) :
    Option (DisruptorBuilder state') :=
  (match kind with
    | .handler => b.addEventHandler
    | .handlerWithState => b.addEventHandlerWithState
    | .poller => b.getEventPoller).map b.withContext

/-! ### `NC`: no consumers yet -/

def NC.eventPoller : DisruptorBuilder .NC → Option (DisruptorBuilder .SC) := add .poller

def NC.handleEventsWith : DisruptorBuilder .NC → Option (DisruptorBuilder .SC) := add .handler

def NC.handleEventsAndStateWith : DisruptorBuilder .NC → Option (DisruptorBuilder .SC) :=
  add .handlerWithState

/-! ### `SC`: one consumer -/

def SC.eventPoller : DisruptorBuilder .SC → Option (DisruptorBuilder .MC) := add .poller

def SC.handleEventsWith : DisruptorBuilder .SC → Option (DisruptorBuilder .MC) := add .handler

def SC.handleEventsAndStateWith : DisruptorBuilder .SC → Option (DisruptorBuilder .MC) :=
  add .handlerWithState

/-- `consumer_cursors.remove(0)`, with what is left of the vector. -/
def removeFirst (cursors : Option (List Nat)) : Option (Nat × List Nat) :=
  match cursors with
  | some (cursor :: rest) => some (cursor, rest)
  | _ => none

def SC.andThen (b : DisruptorBuilder .SC) : Option (DisruptorBuilder .NC) :=
  match removeFirst b.context.currentConsumerCursors with
  | none => none
  | some (cursor, rest) =>
    some
      { context := { b.context with currentConsumerCursors := some rest }
        producerBarrier := b.producerBarrier
        dependentBarrier := .uniConsumer cursor }

def SC.build (b : DisruptorBuilder .SC) : Option Wiring :=
  match removeFirst b.context.currentConsumerCursors with
  | none => none
  | some (cursor, _) =>
    some
      { consumers := b.context.consumers
        consumerHandles := b.context.consumerHandles
        consumerBarrier := .uniConsumer cursor }

/-! ### `MC`: two or more consumers -/

def MC.eventPoller : DisruptorBuilder .MC → Option (DisruptorBuilder .MC) := add .poller

def MC.handleEventsWith : DisruptorBuilder .MC → Option (DisruptorBuilder .MC) := add .handler

def MC.handleEventsAndStateWith : DisruptorBuilder .MC → Option (DisruptorBuilder .MC) :=
  add .handlerWithState

def MC.andThen (b : DisruptorBuilder .MC) : Option (DisruptorBuilder .NC) :=
  match b.context.currentConsumerCursors with
  | none => none
  | some cursors =>
    some
      { context := { b.context with currentConsumerCursors := some [] }
        producerBarrier := b.producerBarrier
        dependentBarrier := .multiConsumer cursors }

def MC.build (b : DisruptorBuilder .MC) : Option Wiring :=
  match b.context.currentConsumerCursors with
  | none => none
  | some cursors =>
    some
      { consumers := b.context.consumers
        consumerHandles := b.context.consumerHandles
        consumerBarrier := .multiConsumer cursors }

end DisruptorBuilder

-- ---------------------------------------------------------------------------
-- Chains of builder calls
-- ---------------------------------------------------------------------------

/-- A chain of builder calls ending in the given typestate. -/
inductive Chain : BuilderState → Type where
  | new : Chain .NC
  | first (kind : ConsumerKind) (chain : Chain .NC) : Chain .SC
  | second (kind : ConsumerKind) (chain : Chain .SC) : Chain .MC
  | more (kind : ConsumerKind) (chain : Chain .MC) : Chain .MC
  | andThenSC (chain : Chain .SC) : Chain .NC
  | andThenMC (chain : Chain .MC) : Chain .NC

open DisruptorBuilder in
/-- Perform the calls on a new builder. -/
def Chain.run (builder : DisruptorBuilder .NC) :
    {state : BuilderState} → Chain state → Option (DisruptorBuilder state)
  | _, .new => some builder
  | _, .first kind chain =>
    (chain.run builder).bind fun b =>
      match kind with
      | .handler => NC.handleEventsWith b
      | .handlerWithState => NC.handleEventsAndStateWith b
      | .poller => NC.eventPoller b
  | _, .second kind chain =>
    (chain.run builder).bind fun b =>
      match kind with
      | .handler => SC.handleEventsWith b
      | .handlerWithState => SC.handleEventsAndStateWith b
      | .poller => SC.eventPoller b
  | _, .more kind chain =>
    (chain.run builder).bind fun b =>
      match kind with
      | .handler => MC.handleEventsWith b
      | .handlerWithState => MC.handleEventsAndStateWith b
      | .poller => MC.eventPoller b
  | _, .andThenSC chain => (chain.run builder).bind SC.andThen
  | _, .andThenMC chain => (chain.run builder).bind MC.andThen

/-- A chain that can be finished with `build`. -/
inductive BuildChain where
  | sc (chain : Chain .SC)
  | mc (chain : Chain .MC)

open DisruptorBuilder in
/-- Perform the calls, then `build`. -/
def BuildChain.build (builder : DisruptorBuilder .NC) : BuildChain → Option Wiring
  | .sc chain => (chain.run builder).bind SC.build
  | .mc chain => (chain.run builder).bind MC.build

end Calvera
