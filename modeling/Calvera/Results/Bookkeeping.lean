import Calvera.Refinement.Wiring

/-!
# Results — what the builders keep

`build` and `and_then` unwrap the vector of cursors and take its first element
"guaranteed by construction". The construction is the chain of calls: the
vector is emptied by `remove(0)` in one typestate, swapped in another, taken in
a third, and the types count the consumers only up to two.

* `builder_bookkeeping` — what the context of a builder holds after any chain
  of calls, and what `build` makes of it, for both builders.
-/

namespace Calvera

/-- The cursors a consumer barrier was made over. -/
def Barrier.cursors : Barrier → List Nat
  | .uniProducer | .multiProducer => []
  | .uniConsumer cursor => [cursor]
  | .multiConsumer cursors => cursors

/-- How many consumers the typestate says were added since the last `and_then`. -/
def BuilderState.Counts : BuilderState → Nat → Prop
  | .NC, n => n = 0
  | .SC, n => n = 1
  | .MC, n => 2 ≤ n

namespace Chain

/-- The consumers added since the last `and_then`. -/
def group : {state : BuilderState} → Chain state → List Nat
  | _, .new => []
  | _, .first _ chain | _, .second _ chain | _, .more _ chain =>
    chain.group ++ [chain.kinds.length]
  | _, .andThenSC _ | _, .andThenMC _ => []

/-- The barriers the `and_then` calls make, in the order of the calls. -/
def barriers (builder : DisruptorBuilder .NC) : {state : BuilderState} → Chain state → List Barrier
  | _, .new => []
  | _, .first _ chain | _, .second _ chain | _, .more _ chain => chain.barriers builder
  | _, .andThenSC chain =>
    chain.barriers builder ++
      (((andThenSC chain).run builder).map DisruptorBuilder.dependentBarrier).toList
  | _, .andThenMC chain =>
    chain.barriers builder ++
      (((andThenMC chain).run builder).map DisruptorBuilder.dependentBarrier).toList

end Chain

/-- All barriers a finished chain makes, the producer's last. -/
def BuildChain.barriers (builder : DisruptorBuilder .NC) : BuildChain → List Barrier
  | .sc chain =>
    chain.barriers builder ++
      (((sc chain).build builder).map Wiring.consumerBarrier).toList
  | .mc chain =>
    chain.barriers builder ++
      (((mc chain).build builder).map Wiring.consumerBarrier).toList

/-- One handle for each managed consumer, none for pollers. -/
def HandlesOf (consumers : List ConsumerSpec) (consumerHandles : List Nat) : Prop :=
  consumerHandles.Nodup ∧
    ∀ c, c ∈ consumerHandles ↔ ∃ spec, consumers[c]? = some spec ∧ spec.kind ≠ .poller

/-- The builder `b` after the calls of `chain` on the builder `builder`. -/
structure Books (builder : DisruptorBuilder .NC) {state : BuilderState} (chain : Chain state)
    (b : DisruptorBuilder state) : Prop where
  /-- Every call has added its consumer. -/
  consumers : b.context.consumers.map ConsumerSpec.kind = chain.kinds
  /-- `current_consumer_cursors` is `Some`, of the consumers added since the last
  `and_then`. -/
  current : b.context.currentConsumerCursors = some chain.group
  counts : state.Counts chain.group.length
  /-- Every cursor is in one barrier made so far or among the current ones. -/
  once : (chain.barriers builder).flatMap Barrier.cursors ++ chain.group =
    List.range b.context.consumers.length
  multi : ∀ cursors, .multiConsumer cursors ∈ chain.barriers builder → 2 ≤ cursors.length
  handles : HandlesOf b.context.consumers b.context.consumerHandles

/-- What `build` returns at the end of `chain`. -/
structure Assembled (builder : DisruptorBuilder .NC) (chain : BuildChain) (w : Wiring) : Prop where
  consumers : w.consumers.map ConsumerSpec.kind = chain.kinds
  /-- Every cursor is in exactly one barrier. -/
  once : (chain.barriers builder).flatMap Barrier.cursors = List.range w.consumers.length
  /-- It is the barrier behind the consumer's own stage. -/
  behind : ∀ c < w.consumers.length, ∀ j barrier, (chain.barriers builder)[j]? = some barrier →
    (c ∈ barrier.cursors ↔ j = chain.stageOf c)
  /-- On which the next stage waits; the first stage waits on the producer. -/
  waits : ∀ c spec, w.consumers[c]? = some spec →
    (builder.producerBarrier :: chain.barriers builder)[chain.stageOf c]? =
      some spec.dependentBarrier
  /-- The producer checks the last one. -/
  last : (chain.barriers builder).length = chain.last + 1 ∧
    (chain.barriers builder)[chain.last]? = some w.consumerBarrier
  multi : ∀ cursors, .multiConsumer cursors ∈ chain.barriers builder → 2 ≤ cursors.length
  handles : HandlesOf w.consumers w.consumerHandles

/-- No chain of calls on the builder panics, and none loses track of a consumer. -/
structure KeepsBooks (builder : DisruptorBuilder .NC) : Prop where
  run : ∀ {state : BuilderState} (chain : Chain state),
    ∃ b, chain.run builder = some b ∧ Books builder chain b
  build : ∀ chain : BuildChain, ∃ w, chain.build builder = some w ∧ Assembled builder chain w

-- ---------------------------------------------------------------------------
-- The barriers of a chain
-- ---------------------------------------------------------------------------

theorem Barrier.cursors_barrierAt (producerBarrier : Barrier) (stages : List Nat) (j : Nat) :
    (barrierAt producerBarrier stages (j + 1)).cursors = stageMembers stages j := by
  rw [barrierAt]
  split
  · rename_i cursor hOne
    rw [hOne]
    rfl
  · rfl

namespace Chain

variable {state : BuilderState}

/-- What was added since the last `and_then` is the current stage. -/
theorem group_eq (chain : Chain state) : chain.group = stageMembers chain.stages chain.stage := by
  have hAdd : ∀ {state : BuilderState} (chain : Chain state),
      chain.group = stageMembers chain.stages chain.stage →
      chain.group ++ [chain.kinds.length] =
        stageMembers (chain.stages ++ [chain.stage]) chain.stage := by
    intro state chain ih
    rw [stageMembers_append, if_pos rfl, ih, length_kinds]
  induction chain with
  | new => rfl
  | first kind chain ih => exact hAdd chain ih
  | second kind chain ih => exact hAdd chain ih
  | more kind chain ih => exact hAdd chain ih
  | andThenSC chain _ => exact (andThenSC chain).stages_le.2.2.symm
  | andThenMC chain _ => exact (andThenMC chain).stages_le.2.2.symm

/-- The barrier made by the `and_then` behind stage `j` is the one in front of
the next stage. -/
theorem barriers_eq (producerBarrier : Barrier) (chain : Chain state) :
    chain.barriers (Chain.new.builder producerBarrier) =
      (List.range chain.stage).map fun j => barrierAt producerBarrier chain.stages (j + 1) := by
  -- a new consumer is in the current stage, behind all these barriers
  have hAdd : ∀ {state : BuilderState} (chain : Chain state),
      ((List.range chain.stage).map fun j =>
        barrierAt producerBarrier (chain.stages ++ [chain.stage]) (j + 1)) =
      (List.range chain.stage).map fun j => barrierAt producerBarrier chain.stages (j + 1) := by
    intro state chain
    refine List.map_congr_left fun j hj => ?_
    have hlt := List.mem_range.mp hj
    exact barrierAt_append producerBarrier chain.stages (by omega)
  induction chain with
  | new => rfl
  | first kind chain ih => exact ih.trans (hAdd chain).symm
  | second kind chain ih => exact ih.trans (hAdd chain).symm
  | more kind chain ih => exact ih.trans (hAdd chain).symm
  | andThenSC chain ih =>
    rw [barriers, run_eq, ih, stage, List.range_succ, List.map_append]
    rfl
  | andThenMC chain ih =>
    rw [barriers, run_eq, ih, stage, List.range_succ, List.map_append]
    rfl

/-- The stages so far, one after the other, are all consumers in the order they
were added. -/
theorem flatMap_stageMembers (chain : Chain state) :
    (List.range chain.stage).flatMap (stageMembers chain.stages) ++ chain.group =
      List.range chain.kinds.length := by
  have hAdd : ∀ {state : BuilderState} (chain : Chain state) (kind : ConsumerKind),
      (List.range chain.stage).flatMap (stageMembers chain.stages) ++ chain.group =
        List.range chain.kinds.length →
      (List.range chain.stage).flatMap (stageMembers (chain.stages ++ [chain.stage])) ++
        (chain.group ++ [chain.kinds.length]) = List.range (chain.kinds ++ [kind]).length := by
    intro state chain kind ih
    have hOld : (List.range chain.stage).flatMap
        (stageMembers (chain.stages ++ [chain.stage])) =
        (List.range chain.stage).flatMap (stageMembers chain.stages) := by
      refine List.flatMap_congr fun j hj => ?_
      have hne : chain.stage ≠ j := (List.mem_range.mp hj).ne'
      rw [stageMembers_append, if_neg hne, List.append_nil]
    rw [hOld, ← List.append_assoc, ih, List.length_append, List.length_singleton, List.range_succ]
  have hClose : ∀ {state : BuilderState} (chain : Chain state),
      (List.range chain.stage).flatMap (stageMembers chain.stages) ++ chain.group =
        List.range chain.kinds.length →
      (List.range (chain.stage + 1)).flatMap (stageMembers chain.stages) ++ [] =
        List.range chain.kinds.length := by
    intro state chain ih
    rw [List.append_nil, List.range_succ, List.flatMap_append, List.flatMap_singleton,
      ← chain.group_eq, ih]
  induction chain with
  | new => rfl
  | first kind chain ih => exact hAdd chain kind ih
  | second kind chain ih => exact hAdd chain kind ih
  | more kind chain ih => exact hAdd chain kind ih
  | andThenSC chain ih => exact hClose chain ih
  | andThenMC chain ih => exact hClose chain ih

end Chain

/-- A barrier over several cursors has at least two of them. -/
theorem two_le_of_barrierAt {producerBarrier : Barrier} {stages : List Nat} {j : Nat}
    {cursors : List Nat} (hSome : stageMembers stages j ≠ [])
    (h : barrierAt producerBarrier stages (j + 1) = .multiConsumer cursors) :
    2 ≤ cursors.length := by
  rw [barrierAt] at h
  split at h
  · cases h
  · rename_i hNotOne
    obtain rfl := Barrier.multiConsumer.inj h
    cases hMembers : stageMembers stages j with
    | nil => exact (hSome hMembers).elim
    | cons cursor rest =>
      cases rest with
      | nil => exact (hNotOne cursor hMembers).elim
      | cons _ _ => exact Nat.le_add_left 2 _

theorem map_kind_specs (producerBarrier : Barrier) {kinds : List ConsumerKind} {stages : List Nat}
    (hLen : kinds.length = stages.length) :
    (specs producerBarrier kinds stages).map ConsumerSpec.kind = kinds := by
  apply List.ext_getElem?
  intro c
  rw [List.getElem?_map, getElem?_specs]
  cases hKind : kinds[c]? with
  | none => rfl
  | some kind =>
    have hlt : c < stages.length := hLen ▸ (List.getElem?_eq_some_iff.mp hKind).1
    rw [List.getElem?_eq_getElem hlt]
    rfl

theorem handlesOf_specs (producerBarrier : Barrier) {kinds : List ConsumerKind} {stages : List Nat}
    (hLen : kinds.length = stages.length) :
    HandlesOf (specs producerBarrier kinds stages) (managed kinds) :=
  ⟨List.nodup_range.filter _, mem_managed producerBarrier hLen⟩

/-- The builder a chain leads to has kept its books. -/
theorem Chain.books (producerBarrier : Barrier) {state : BuilderState} (chain : Chain state) :
    Books (Chain.new.builder producerBarrier) chain (chain.builder producerBarrier) where
  consumers := map_kind_specs producerBarrier chain.length_kinds
  current := by
    rw [chain.group_eq]
    rfl
  counts := by
    rw [chain.group_eq]
    cases state with
    | NC => exact List.length_eq_zero_iff.mpr chain.stages_le.2.2
    | SC => exact List.length_eq_one_iff.mpr chain.stages_le.2.2
    | MC => exact chain.stages_le.2.2
  once := by
    have hLength : (chain.builder producerBarrier).context.consumers.length = chain.kinds.length :=
      (length_specs producerBarrier chain.length_kinds).trans chain.length_kinds.symm
    rw [barriers_eq, List.flatMap_map, hLength, ← chain.flatMap_stageMembers]
    simp only [Barrier.cursors_barrierAt]
  multi cursors hMem := by
    rw [barriers_eq] at hMem
    obtain ⟨j, hj, hMulti⟩ := List.mem_map.mp hMem
    exact two_le_of_barrierAt (chain.stages_le.2.1 j (List.mem_range.mp hj)) hMulti
  handles := handlesOf_specs producerBarrier chain.length_kinds

namespace BuildChain

theorem barriers_eq (producerBarrier : Barrier) (chain : BuildChain) :
    chain.barriers (Chain.new.builder producerBarrier) =
      (List.range (chain.last + 1)).map fun j =>
        barrierAt producerBarrier chain.stages (j + 1) := by
  cases chain with
  | sc chain =>
    rw [barriers, build_eq, chain.barriers_eq, List.range_succ, List.map_append]
    rfl
  | mc chain =>
    rw [barriers, build_eq, chain.barriers_eq, List.range_succ, List.map_append]
    rfl

/-- The stages one after the other are all consumers. -/
theorem flatMap_stageMembers (chain : BuildChain) :
    (List.range (chain.last + 1)).flatMap (stageMembers chain.stages) =
      List.range chain.stages.length := by
  rw [List.range_succ, List.flatMap_append, List.flatMap_singleton, ← chain.length_kinds]
  cases chain with
  | sc chain =>
    have hTile := chain.flatMap_stageMembers
    rw [chain.group_eq] at hTile
    exact hTile
  | mc chain =>
    have hTile := chain.flatMap_stageMembers
    rw [chain.group_eq] at hTile
    exact hTile

/-- What `build` returns has lost no consumer. -/
theorem assembled (producerBarrier : Barrier) (chain : BuildChain) :
    Assembled (Chain.new.builder producerBarrier) chain (chain.wiring producerBarrier) where
  consumers := map_kind_specs producerBarrier chain.length_kinds
  once := by
    rw [barriers_eq, List.flatMap_map, length_consumers, ← chain.flatMap_stageMembers]
    simp only [Barrier.cursors_barrierAt]
  behind c hc j barrier hBarrier := by
    rw [length_consumers] at hc
    rw [barriers_eq, List.getElem?_map, Option.map_eq_some_iff] at hBarrier
    obtain ⟨i, hi, rfl⟩ := hBarrier
    obtain ⟨-, rfl⟩ := List.getElem?_eq_some_iff.mp hi
    rw [List.getElem_range, Barrier.cursors_barrierAt, mem_stageMembers, stageOf,
      List.getD_eq_getElem _ _ hc, List.getElem?_eq_getElem hc, Option.some.injEq, eq_comm]
  waits c spec hSpec := by
    have hlt : c < chain.stages.length := by
      rw [← length_consumers producerBarrier]
      exact (List.getElem?_eq_some_iff.mp hSpec).1
    have hLe : chain.stageOf c ≤ chain.last := by
      rw [stageOf, List.getD_eq_getElem _ _ hlt]
      exact chain.stages_le (List.getElem_mem hlt)
    rw [barriers_eq, dependentBarrier_eq hSpec]
    cases hStage : chain.stageOf c with
    | zero => rfl
    | succ j =>
      rw [List.getElem?_cons_succ, List.getElem?_map, List.getElem?_range (by omega)]
      rfl
  last := by
    rw [barriers_eq]
    refine ⟨by simp, ?_⟩
    rw [List.getElem?_map, List.getElem?_range (Nat.lt_succ_self _)]
    rfl
  multi cursors hMem := by
    rw [barriers_eq] at hMem
    obtain ⟨j, hj, hMulti⟩ := List.mem_map.mp hMem
    have hSome := chain.stageMembers_ne_nil (Nat.le_of_lt_succ (List.mem_range.mp hj))
    exact two_le_of_barrierAt hSome hMulti
  handles := handlesOf_specs producerBarrier chain.length_kinds

end BuildChain

theorem keepsBooks (producerBarrier : Barrier) : KeepsBooks (Chain.new.builder producerBarrier) where
  run chain := ⟨_, chain.run_eq producerBarrier, chain.books producerBarrier⟩
  build chain := ⟨_, chain.build_eq producerBarrier, chain.assembled producerBarrier⟩

/-- **The builders lose no consumer.** For every chain of calls the typestate
accepts, on either builder: no call panics; `current_consumer_cursors` holds
exactly the cursors added since the last `and_then`, none in `NC`, one in `SC`
and at least two in `MC`; every cursor ends in exactly one barrier, in front of
the next stage or of the producer; no barrier is made over an empty list; and
the producer is given one handle for each managed consumer and none for pollers. -/
theorem builder_bookkeeping :
    KeepsBooks buildUniProducerUnchecked ∧ KeepsBooks buildMultiProducerUnchecked :=
  ⟨keepsBooks .uniProducer, keepsBooks .multiProducer⟩

/-- A handler and a poller, behind them a poller, behind it two handlers. -/
def diamond : BuildChain :=
  .mc (.second .handlerWithState (.first .handler (.andThenSC (.first .poller
    (.andThenMC (.second .poller (.first .handler .new)))))))

example : diamond.barriers buildUniProducerUnchecked =
    [.multiConsumer [0, 1], .uniConsumer 2, .multiConsumer [3, 4]] := by decide

end Calvera
