import Calvera.Code.Builder
import Calvera.Protocol.Pipeline
import Mathlib.Data.List.GetD

/-!
# Refinement — what the builders wire

Whatever chain of builder calls the typestate accepts, `build` succeeds, and
its result is the wiring one reads off the chain: consumer `c` of stage `j`
waits on all consumers of stage `j - 1` (on the producer barrier in stage `0`),
and the producer waits on all consumers of the last stage.

Results:

* `BuildChain.build_eq` — the result of `build`, in closed form.
* `BuildChain.wired`    — it is wired as the stages of the chain
  (`BuildChain.topology`) say.
-/

namespace Calvera

open Calvera.Protocol

-- ---------------------------------------------------------------------------
-- The stages of a chain
-- ---------------------------------------------------------------------------

namespace Chain

/-- The number of `and_then` calls so far. -/
def stage : {state : BuilderState} → Chain state → Nat
  | _, .new => 0
  | _, .first _ chain | _, .second _ chain | _, .more _ chain => chain.stage
  | _, .andThenSC chain | _, .andThenMC chain => chain.stage + 1

/-- The stage of each consumer, in the order they were added. -/
def stages : {state : BuilderState} → Chain state → List Nat
  | _, .new => []
  | _, .first _ chain | _, .second _ chain | _, .more _ chain => chain.stages ++ [chain.stage]
  | _, .andThenSC chain | _, .andThenMC chain => chain.stages

/-- How each consumer was added. -/
def kinds : {state : BuilderState} → Chain state → List ConsumerKind
  | _, .new => []
  | _, .first kind chain | _, .second kind chain | _, .more kind chain => chain.kinds ++ [kind]
  | _, .andThenSC chain | _, .andThenMC chain => chain.kinds

theorem length_kinds {state : BuilderState} (chain : Chain state) :
    chain.kinds.length = chain.stages.length := by
  induction chain <;> simp_all [kinds, stages]

end Chain

/-- The consumers of stage `j`, in the order they were added. -/
def stageMembers (stages : List Nat) (j : Nat) : List Nat :=
  (List.range stages.length).filter fun c => stages[c]? = some j

theorem mem_stageMembers {stages : List Nat} {j c : Nat} :
    c ∈ stageMembers stages j ↔ stages[c]? = some j := by
  simp only [stageMembers, List.mem_filter, List.mem_range, decide_eq_true_eq, and_iff_right_iff_imp]
  intro h
  exact (List.getElem?_eq_some_iff.mp h).1

/-- A new consumer joins the end of its own stage. -/
theorem stageMembers_append (stages : List Nat) (k j : Nat) :
    stageMembers (stages ++ [k]) j =
      stageMembers stages j ++ if k = j then [stages.length] else [] := by
  have hOld : (List.range stages.length).filter (fun c => (stages ++ [k])[c]? = some j) =
      stageMembers stages j := by
    refine List.filter_congr fun c hc => ?_
    rw [List.getElem?_append_left (List.mem_range.mp hc)]
  rw [stageMembers, List.length_append, List.length_singleton, List.range_succ, List.filter_append,
    hOld]
  by_cases hk : k = j <;> simp [hk]

/-- The barrier in front of stage `j`: the producer barrier, or one over the
cursors of the stage before. -/
def barrierAt (producerBarrier : Barrier) (stages : List Nat) : Nat → Barrier
  | 0 => producerBarrier
  | j + 1 =>
    match stageMembers stages j with
    | [cursor] => .uniConsumer cursor
    | cursors => .multiConsumer cursors

/-- A consumer added to stage `k` does not change the barriers up to stage `k`. -/
theorem barrierAt_append (producerBarrier : Barrier) (stages : List Nat) {k j : Nat} (hj : j ≤ k) :
    barrierAt producerBarrier (stages ++ [k]) j = barrierAt producerBarrier stages j := by
  cases j with
  | zero => rfl
  | succ j =>
    have hne : k ≠ j := by omega
    simp [barrierAt, stageMembers_append, hne]

/-- The threads to join. -/
def managed (kinds : List ConsumerKind) : List Nat :=
  (List.range kinds.length).filter fun c => kinds[c]? != some .poller

theorem managed_append (kinds : List ConsumerKind) (kind : ConsumerKind) :
    managed (kinds ++ [kind]) =
      managed kinds ++ if kind = .poller then [] else [kinds.length] := by
  have hOld : (List.range kinds.length).filter (fun c => (kinds ++ [kind])[c]? != some .poller) =
      managed kinds := by
    refine List.filter_congr fun c hc => ?_
    rw [List.getElem?_append_left (List.mem_range.mp hc)]
  rw [managed, List.length_append, List.length_singleton, List.range_succ, List.filter_append, hOld]
  cases kind <;> simp

/-- The consumers, as the stages say they are wired. -/
def specs (producerBarrier : Barrier) (kinds : List ConsumerKind) (stages : List Nat) :
    List ConsumerSpec :=
  List.zipWith (fun kind j => ⟨kind, barrierAt producerBarrier stages j⟩) kinds stages

theorem specs_append (producerBarrier : Barrier) {kinds : List ConsumerKind} {stages : List Nat}
    (hLen : kinds.length = stages.length) (kind : ConsumerKind) {k : Nat}
    (hLe : ∀ j ∈ stages, j ≤ k) :
    specs producerBarrier (kinds ++ [kind]) (stages ++ [k]) =
      specs producerBarrier kinds stages ++ [⟨kind, barrierAt producerBarrier stages k⟩] := by
  rw [specs, List.zipWith_append hLen, specs]
  congr 1
  · have hSame : stages.map (fun j => barrierAt producerBarrier (stages ++ [k]) j) =
        stages.map (fun j => barrierAt producerBarrier stages j) :=
      List.map_congr_left fun j hj => barrierAt_append producerBarrier stages (hLe j hj)
    have hZip : ∀ f : Nat → Barrier, List.zipWith (fun kind j => ConsumerSpec.mk kind (f j)) kinds
        stages = List.zipWith ConsumerSpec.mk kinds (stages.map f) := fun f => by
      rw [List.zipWith_map_right]
    rw [hZip, hZip, hSame]
  · simp [barrierAt_append producerBarrier stages (le_refl k)]

theorem getElem?_specs (producerBarrier : Barrier) (kinds : List ConsumerKind) (stages : List Nat)
    (c : Nat) : (specs producerBarrier kinds stages)[c]? =
      kinds[c]?.bind fun kind => stages[c]?.map fun j =>
        ⟨kind, barrierAt producerBarrier stages j⟩ := by
  rw [specs, List.getElem?_zipWith]
  cases kinds[c]? <;> cases stages[c]? <;> rfl

theorem length_specs (producerBarrier : Barrier) {kinds : List ConsumerKind} {stages : List Nat}
    (hLen : kinds.length = stages.length) :
    (specs producerBarrier kinds stages).length = stages.length := by
  rw [specs, List.length_zipWith, hLen, Nat.min_self]

/-- The threads to join are the consumers that are not pollers. -/
theorem mem_managed (producerBarrier : Barrier) {kinds : List ConsumerKind} {stages : List Nat}
    (hLen : kinds.length = stages.length) (c : Nat) :
    c ∈ managed kinds ↔
      ∃ spec, (specs producerBarrier kinds stages)[c]? = some spec ∧ spec.kind ≠ .poller := by
  rw [getElem?_specs]
  simp only [managed, List.mem_filter, List.mem_range, Option.bind_eq_some_iff,
    Option.map_eq_some_iff]
  constructor
  · rintro ⟨hlt, hKind⟩
    have hStage : c < stages.length := hLen ▸ hlt
    refine ⟨_, ⟨_, List.getElem?_eq_getElem hlt, _, List.getElem?_eq_getElem hStage, rfl⟩, ?_⟩
    simpa [List.getElem?_eq_getElem hlt] using hKind
  · rintro ⟨spec, ⟨kind, hKind, j, -, rfl⟩, hne⟩
    exact ⟨(List.getElem?_eq_some_iff.mp hKind).1, by simpa [hKind] using hne⟩

-- ---------------------------------------------------------------------------
-- The builder after a chain
-- ---------------------------------------------------------------------------

namespace Chain

/-- All consumers are in the stages up to the current one; in typestate `NC`
the current stage is empty, in `SC` it has one consumer and in `MC` more. -/
theorem stages_le {state : BuilderState} (chain : Chain state) :
    (∀ j ∈ chain.stages, j ≤ chain.stage) ∧
      (∀ j < chain.stage, stageMembers chain.stages j ≠ []) ∧
      match state with
      | .NC => stageMembers chain.stages chain.stage = []
      | .SC => ∃ cursor, stageMembers chain.stages chain.stage = [cursor]
      | .MC => 2 ≤ (stageMembers chain.stages chain.stage).length := by
  induction chain with
  | new => simp [stages, stage, stageMembers]
  | first kind chain ih =>
    obtain ⟨hLe, hFull, hNone⟩ := ih
    refine ⟨?_, ?_, ⟨chain.stages.length, ?_⟩⟩
    · simpa [stages, stage, or_imp, forall_and] using hLe
    · intro j hj
      have hne : stageMembers chain.stages j ≠ [] := hFull j hj
      simp [stages, stageMembers_append, hne]
    · simp_all [stages, stage, stageMembers_append]
  | second kind chain ih =>
    obtain ⟨hLe, hFull, cursor, hOne⟩ := ih
    refine ⟨?_, ?_, ?_⟩
    · simpa [stages, stage, or_imp, forall_and] using hLe
    · intro j hj
      have hne : stageMembers chain.stages j ≠ [] := hFull j hj
      simp [stages, stageMembers_append, hne]
    · simp [stages, stage, stageMembers_append, hOne]
  | more kind chain ih =>
    obtain ⟨hLe, hFull, hMany⟩ := ih
    refine ⟨?_, ?_, ?_⟩
    · simpa [stages, stage, or_imp, forall_and] using hLe
    · intro j hj
      have hne : stageMembers chain.stages j ≠ [] := hFull j hj
      simp [stages, stageMembers_append, hne]
    · simp only [stages, stage, stageMembers_append, if_true, List.length_append] at hMany ⊢
      omega
  | andThenSC chain ih =>
    obtain ⟨hLe, hFull, cursor, hOne⟩ := ih
    exact closeStage chain.stages hLe hFull (by simp [hOne])
  | andThenMC chain ih =>
    obtain ⟨hLe, hFull, hMany⟩ := ih
    exact closeStage chain.stages hLe hFull (by rintro h; simp [h] at hMany)
where
  closeStage {k : Nat} (stages : List Nat) (hLe : ∀ j ∈ stages, j ≤ k)
      (hFull : ∀ j < k, stageMembers stages j ≠ []) (hNow : stageMembers stages k ≠ []) :
      (∀ j ∈ stages, j ≤ k + 1) ∧ (∀ j < k + 1, stageMembers stages j ≠ []) ∧
        stageMembers stages (k + 1) = [] := by
    refine ⟨fun j hj => (hLe j hj).trans (Nat.le_succ k), fun j hj => ?_, ?_⟩
    · rcases Nat.lt_succ_iff_lt_or_eq.mp hj with hlt | rfl
      · exact hFull j hlt
      · exact hNow
    · rw [List.eq_nil_iff_forall_not_mem]
      intro c hc
      have := hLe _ (List.mem_of_getElem? (mem_stageMembers.mp hc))
      omega

/-- The builder a chain leads to. -/
def builder (producerBarrier : Barrier) {state : BuilderState} (chain : Chain state) :
    DisruptorBuilder state where
  context :=
    { consumers := specs producerBarrier chain.kinds chain.stages
      consumerHandles := managed chain.kinds
      currentConsumerCursors := some (stageMembers chain.stages chain.stage) }
  producerBarrier := producerBarrier
  dependentBarrier := barrierAt producerBarrier chain.stages chain.stage

/-- Adding a consumer to the builder of a chain gives the builder of the longer
chain. -/
theorem add_builder (producerBarrier : Barrier) {state state' : BuilderState} (chain : Chain state)
    (longer : Chain state') (kind : ConsumerKind) (hKinds : longer.kinds = chain.kinds ++ [kind])
    (hStages : longer.stages = chain.stages ++ [chain.stage])
    (hStage : longer.stage = chain.stage) :
    (chain.builder producerBarrier).add kind = some (longer.builder producerBarrier) := by
  have hSpecs := specs_append producerBarrier chain.length_kinds kind chain.stages_le.1
  have hLen := length_specs producerBarrier chain.length_kinds
  have hBarrier := barrierAt_append producerBarrier chain.stages (le_refl chain.stage)
  unfold builder
  rw [hKinds, hStages, hStage, hSpecs, hBarrier, managed_append, stageMembers_append]
  cases kind <;>
    simp [DisruptorBuilder.add, DisruptorBuilder.addEventHandler,
      DisruptorBuilder.addEventHandlerWithState, DisruptorBuilder.getEventPoller,
      DisruptorBuilder.withContext, BuilderContext.create, BuilderContext.addConsumerAndCursor,
      BuilderContext.addCursor, BuilderContext.nextConsumer, hLen, chain.length_kinds]

/-- **No chain of calls panics**, and it leads to the builder one expects. -/
theorem run_eq (producerBarrier : Barrier) {state : BuilderState} (chain : Chain state) :
    chain.run (Chain.new.builder producerBarrier) = some (chain.builder producerBarrier) := by
  induction chain with
  | new => rfl
  | first kind chain ih =>
    rw [run, ih, Option.bind_some]
    have hAdd := add_builder producerBarrier chain (.first kind chain) kind rfl rfl rfl
    cases kind <;> exact hAdd
  | second kind chain ih =>
    rw [run, ih, Option.bind_some]
    have hAdd := add_builder producerBarrier chain (.second kind chain) kind rfl rfl rfl
    cases kind <;> exact hAdd
  | more kind chain ih =>
    rw [run, ih, Option.bind_some]
    have hAdd := add_builder producerBarrier chain (.more kind chain) kind rfl rfl rfl
    cases kind <;> exact hAdd
  | andThenSC chain ih =>
    obtain ⟨-, -, cursor, hOne⟩ := chain.stages_le
    have hEmpty := (Chain.andThenSC chain).stages_le.2.2
    simp only [stages, stage] at hEmpty
    rw [run, ih, Option.bind_some]
    simp [DisruptorBuilder.SC.andThen, builder, DisruptorBuilder.removeFirst, hOne, stages, kinds,
      stage, hEmpty, barrierAt]
  | andThenMC chain ih =>
    have hMany : 2 ≤ (stageMembers chain.stages chain.stage).length := chain.stages_le.2.2
    have hEmpty := (Chain.andThenMC chain).stages_le.2.2
    simp only [stages, stage] at hEmpty
    have hNotOne : ∀ cursor, stageMembers chain.stages chain.stage ≠ [cursor] := by
      intro cursor h
      simp [h] at hMany
    rw [run, ih, Option.bind_some]
    simp [DisruptorBuilder.MC.andThen, builder, stages, kinds, stage, hEmpty, barrierAt]

end Chain

-- ---------------------------------------------------------------------------
-- The result of `build`
-- ---------------------------------------------------------------------------

namespace BuildChain

/-- The number of `and_then` calls, which is the last stage. -/
def last : BuildChain → Nat
  | .sc chain => chain.stage
  | .mc chain => chain.stage

def stages : BuildChain → List Nat
  | .sc chain => chain.stages
  | .mc chain => chain.stages

def kinds : BuildChain → List ConsumerKind
  | .sc chain => chain.kinds
  | .mc chain => chain.kinds

/-- The wiring read off the chain. -/
def wiring (producerBarrier : Barrier) (chain : BuildChain) : Wiring where
  consumers := specs producerBarrier chain.kinds chain.stages
  consumerHandles := managed chain.kinds
  consumerBarrier := barrierAt producerBarrier chain.stages (chain.last + 1)

/-- **`build` succeeds on every chain and returns the wiring read off it.** -/
theorem build_eq (producerBarrier : Barrier) (chain : BuildChain) :
    chain.build (Chain.new.builder producerBarrier) = some (chain.wiring producerBarrier) := by
  cases chain with
  | sc chain =>
    obtain ⟨-, -, cursor, hOne⟩ := chain.stages_le
    rw [build, Chain.run_eq, Option.bind_some]
    simp [DisruptorBuilder.SC.build, Chain.builder, DisruptorBuilder.removeFirst, hOne, wiring,
      stages, kinds, last, barrierAt]
  | mc chain =>
    have hMany : 2 ≤ (stageMembers chain.stages chain.stage).length := chain.stages_le.2.2
    have hNotOne : ∀ cursor, stageMembers chain.stages chain.stage ≠ [cursor] := by
      intro cursor h
      simp [h] at hMany
    rw [build, Chain.run_eq, Option.bind_some]
    simp [DisruptorBuilder.MC.build, Chain.builder, wiring, stages, kinds, last, barrierAt]

theorem stages_le (chain : BuildChain) {j : Nat} (hj : j ∈ chain.stages) : j ≤ chain.last := by
  cases chain with
  | sc chain => exact chain.stages_le.1 j hj
  | mc chain => exact chain.stages_le.1 j hj

theorem stageMembers_ne_nil (chain : BuildChain) {j : Nat} (hj : j ≤ chain.last) :
    stageMembers chain.stages j ≠ [] := by
  rcases Nat.lt_or_eq_of_le hj with hlt | rfl
  · cases chain with
    | sc chain => exact chain.stages_le.2.1 j hlt
    | mc chain => exact chain.stages_le.2.1 j hlt
  · cases chain with
    | sc chain =>
      obtain ⟨cursor, hOne⟩ := chain.stages_le.2.2
      exact fun h => by simp_all [stages, last]
    | mc chain =>
      have hMany := chain.stages_le.2.2
      exact fun h => by simp_all [stages, last]

/-- The stage of consumer `c`. -/
def stageOf (chain : BuildChain) (c : Nat) : Nat := chain.stages.getD c 0

/-- The stages of a chain. -/
def topology (chain : BuildChain) : Topology Nat where
  members := Finset.range chain.stages.length
  stage := chain.stageOf
  last := chain.last
  stage_le c hMem := by
    have hlt := Finset.mem_range.mp hMem
    rw [stageOf, List.getD_eq_getElem _ _ hlt]
    exact chain.stages_le (List.getElem_mem hlt)
  occupied j hj := by
    obtain ⟨c, hc⟩ := List.exists_mem_of_ne_nil _ (chain.stageMembers_ne_nil hj)
    rw [mem_stageMembers] at hc
    obtain ⟨hlt, hEq⟩ := List.getElem?_eq_some_iff.mp hc
    exact ⟨c, Finset.mem_range.mpr hlt, by rw [stageOf, List.getD_eq_getElem _ _ hlt, hEq]⟩

end BuildChain

-- ---------------------------------------------------------------------------
-- Barriers and levels
-- ---------------------------------------------------------------------------

/-- The barrier reads exactly what stands for the level. -/
inductive Covers (T : Topology Nat) (producerBarrier : Barrier) : Nat → Barrier → Prop
  | producer : Covers T producerBarrier 0 producerBarrier
  | uni {j : Nat} {cursor : Nat} :
      (∀ c, c = cursor ↔ c ∈ T.members ∧ T.stage c = j) →
      Covers T producerBarrier (j + 1) (.uniConsumer cursor)
  | multi {j : Nat} {cursors : List Nat} :
      (∀ c, c ∈ cursors ↔ c ∈ T.members ∧ T.stage c = j) →
      Covers T producerBarrier (j + 1) (.multiConsumer cursors)

/-- The wiring follows the topology. -/
structure Wired (T : Topology Nat) (producerBarrier : Barrier) (w : Wiring) : Prop where
  mem_iff : ∀ c, c ∈ T.members ↔ c < w.consumers.length
  dependentBarrier : ∀ {c spec}, w.consumers[c]? = some spec →
    Covers T producerBarrier (T.stage c) spec.dependentBarrier
  consumerBarrier : Covers T producerBarrier (T.last + 1) w.consumerBarrier
  consumerHandles : ∀ c, c ∈ w.consumerHandles ↔
    ∃ spec, w.consumers[c]? = some spec ∧ spec.kind ≠ .poller

theorem Wired.mem {T : Topology Nat} {producerBarrier : Barrier} {w : Wiring}
    (hWired : Wired T producerBarrier w) {c : Nat} {spec : ConsumerSpec}
    (h : w.consumers[c]? = some spec) : c ∈ T.members :=
  (hWired.mem_iff c).mpr (List.getElem?_eq_some_iff.mp h).1

namespace BuildChain

theorem mem_topology {chain : BuildChain} {c j : Nat} :
    c ∈ stageMembers chain.stages j ↔
      c ∈ chain.topology.members ∧ chain.topology.stage c = j := by
  rw [mem_stageMembers]
  simp only [topology, Finset.mem_range, stageOf]
  constructor
  · intro h
    obtain ⟨hlt, hEq⟩ := List.getElem?_eq_some_iff.mp h
    exact ⟨hlt, by rw [List.getD_eq_getElem _ _ hlt, hEq]⟩
  · rintro ⟨hlt, hEq⟩
    rw [List.getD_eq_getElem _ _ hlt] at hEq
    rw [List.getElem?_eq_getElem hlt, hEq]

theorem covers_barrierAt (producerBarrier : Barrier) (chain : BuildChain) (j : Nat) :
    Covers chain.topology producerBarrier j (barrierAt producerBarrier chain.stages j) := by
  cases j with
  | zero => exact .producer
  | succ j =>
    rw [barrierAt]
    split
    · rename_i cursor hOne
      refine .uni fun c => ?_
      rw [← mem_topology, hOne, List.mem_singleton]
    · exact .multi fun c => mem_topology

theorem length_kinds (chain : BuildChain) : chain.kinds.length = chain.stages.length := by
  cases chain with
  | sc chain => exact chain.length_kinds
  | mc chain => exact chain.length_kinds

theorem length_consumers (producerBarrier : Barrier) (chain : BuildChain) :
    (chain.wiring producerBarrier).consumers.length = chain.stages.length :=
  length_specs producerBarrier chain.length_kinds

/-- A consumer waits on the barrier in front of its own stage. -/
theorem dependentBarrier_eq {producerBarrier : Barrier} {chain : BuildChain} {c : Nat}
    {spec : ConsumerSpec} (h : (chain.wiring producerBarrier).consumers[c]? = some spec) :
    spec.dependentBarrier = barrierAt producerBarrier chain.stages (chain.stageOf c) := by
  rw [wiring, getElem?_specs] at h
  simp only [Option.bind_eq_some_iff, Option.map_eq_some_iff] at h
  obtain ⟨kind, -, j, hj, rfl⟩ := h
  rw [stageOf, List.getD_eq_getElem?_getD, hj]
  rfl

/-- **What `build` returns is wired as the stages of the chain say.** -/
theorem wired (producerBarrier : Barrier) (chain : BuildChain) :
    Wired chain.topology producerBarrier (chain.wiring producerBarrier) where
  mem_iff c := by
    rw [length_consumers]
    exact Finset.mem_range
  dependentBarrier {c _} h := by
    rw [dependentBarrier_eq h]
    exact covers_barrierAt producerBarrier chain (chain.stageOf c)
  consumerBarrier := covers_barrierAt producerBarrier chain _
  consumerHandles c := mem_managed producerBarrier chain.length_kinds c

/-- A single-producer disruptor is wired as its chain says. -/
theorem wired_uni {chain : BuildChain} {w : Wiring}
    (hBuild : chain.build buildUniProducerUnchecked = some w) :
    Wired chain.topology .uniProducer w := by
  obtain rfl := Option.some.inj ((chain.build_eq .uniProducer).symm.trans hBuild)
  exact chain.wired .uniProducer

/-- A multi-producer disruptor is wired as its chain says. -/
theorem wired_multi {chain : BuildChain} {w : Wiring}
    (hBuild : chain.build buildMultiProducerUnchecked = some w) :
    Wired chain.topology .multiProducer w := by
  obtain rfl := Option.some.inj ((chain.build_eq .multiProducer).symm.trans hBuild)
  exact chain.wired .multiProducer

end BuildChain

end Calvera
