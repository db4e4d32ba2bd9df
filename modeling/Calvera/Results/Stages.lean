import Calvera.Results.SlotExclusion

/-!
# Results — stage order

`and_then` puts consumers behind all consumers of the stage before, whatever
mix of handlers and pollers these are. This holds of every chain of builder
calls the typestate accepts, and it makes the last stage enough for the
producer to look at.

* `stage_order` — a consumer is handed a sequence only when every consumer of
  the stage before has stored a cursor at least that far; so cursors are ordered
  by stage, and the producer's barrier answers at most every cursor.
-/

namespace Calvera

open Calvera.Lib Calvera.Protocol

variable {E P : Type}

/-- The event hands sequence `t` to consumer `c`. -/
def Event.Hands (c : Nat) (t : Int) : Event E → Prop
  | .handled consumer sequence _ _ | .yielded consumer sequence _ => consumer = c ∧ sequence = t
  | _ => False

theorem Event.Hands.ofConsumer {c : Nat} {t : Int} {e : Event E} (h : e.Hands c t) :
    e.OfConsumer := by
  cases e <;> first | exact trivial | exact h.elim

/-- The consumers `c` and `c'` are in neighbouring stages of the chain. -/
def BuildChain.Before (chain : BuildChain) (c c' : Nat) : Prop :=
  chain.stages[c]?.map (· + 1) = chain.stages[c']? ∧ c < chain.stages.length

/-- The consumers of a running disruptor keep the order of the chain's stages. -/
structure StageOrder (chain : BuildChain) (s : System P E) : Prop where
  entitled : ∀ c c' t, chain.Before c c' →
    (s.consumers c').Entitled (s.memory.consumerCursors c') t → t ≤ s.memory.consumerCursors c
  cursors : ∀ c c', chain.Before c c' → s.memory.consumerCursors c' ≤ s.memory.consumerCursors c

theorem BuildChain.Before.stages {chain : BuildChain} {c c' : Nat} (h : chain.Before c c') :
    c ∈ chain.topology.members ∧ c' ∈ chain.topology.members ∧
      chain.topology.stage c < chain.topology.stage c' := by
  obtain ⟨hNext, hLt⟩ := h
  rw [List.getElem?_eq_getElem hLt, Option.map_some] at hNext
  obtain ⟨hMem, hStage⟩ := mem_topology.mp (mem_stageMembers.mpr (List.getElem?_eq_getElem hLt))
  obtain ⟨hMem', hStage'⟩ := mem_topology.mp (mem_stageMembers.mpr hNext.symm)
  exact ⟨hMem, hMem', by omega⟩

/-- A consumer hands out what it is entitled to. -/
theorem ConsumerStep.hands {R : RingSize} {b : Barrier} {c c' : Nat} {m m' : Memory E}
    {pc pc' : ConsumerPc} {es : List (Event E)} (h : ConsumerStep R b c m pc m' pc' es)
    {T : Topology Nat} {producerBarrier : Barrier} {a : State Nat}
    (hOk : pc.Ok R T producerBarrier a c) {e : Event E} {t : Int} (he : e ∈ es)
    (hHands : e.Hands c' t) : c = c' ∧ pc.Entitled (a.cursor c) t := by
  cases h <;> simp only [List.mem_singleton, List.not_mem_nil] at he <;> subst he <;>
    first
    | exact hHands.elim
    | skip
  · obtain ⟨rfl, rfl⟩ := hHands
    exact ⟨rfl, le_refl _, ‹_›⟩
  · obtain ⟨rfl, rfl⟩ := hHands
    exact ⟨rfl, hOk.1, ‹_›⟩

variable {R : RingSize} {chain : BuildChain} {producerBarrier : Barrier} {claimed : Int}
  {published : Set Int} {s : System P E}

/-- The pipeline keeps its stages in order, and so do the consumers. -/
theorem System.Consistent.stageOrder
    (h : s.Consistent R chain.topology producerBarrier claimed published) :
    StageOrder chain s where
  entitled c c' t hBefore hEntitled := by
    obtain ⟨hMem, hMem', hlt⟩ := hBefore.stages
    have hOrder : _ ≤ s.memory.consumerCursors c := h.inv.granted_le_cursor hMem hMem' hlt
    exact (h.entitled hMem' hEntitled).2.trans hOrder
  cursors c c' hBefore := by
    obtain ⟨hMem, hMem', hlt⟩ := hBefore.stages
    have hOrder : _ ≤ s.memory.consumerCursors c := h.inv.granted_le_cursor hMem hMem' hlt
    exact (h.inv.cursor_le_granted c' hMem').trans hOrder

/-- A step of a consumer hands out nothing ahead of the stage before. -/
theorem System.Consistent.hands {w : Wiring} (hWired : Wired chain.topology producerBarrier w)
    (h : s.Consistent R chain.topology producerBarrier claimed published) {c : Nat}
    {spec : ConsumerSpec} {memory : Memory E} {pc : ConsumerPc} {es : List (Event E)}
    (hSpec : w.consumers[c]? = some spec)
    (hStep : ConsumerStep R spec.dependentBarrier c s.memory (s.consumers c) memory pc es)
    {e : Event E} {c₁ c₂ : Nat} {t : Int} (he : e ∈ es) (hHands : e.Hands c₂ t)
    (hBefore : chain.Before c₁ c₂) : t ≤ s.memory.consumerCursors c₁ := by
  obtain ⟨rfl, hEntitled⟩ := hStep.hands (h.consumers c (hWired.mem hSpec)) he hHands
  exact h.stageOrder.entitled c₁ c t hBefore hEntitled

/-- **Stage order over every builder chain.** `build` succeeds on every chain,
and in every reachable state of what it returns: a step hands a sequence to a
consumer only when each consumer of the stage before has stored a cursor at
least that far, guards and batches contain nothing else, cursors are ordered by
stage, and what the producer's barrier answers is at most every cursor. -/
theorem stage_order (chain : BuildChain) :
    (∃ w, chain.build buildUniProducerUnchecked = some w ∧
      ∀ (R : RingSize) (factory : Nat → E) (tr : List (Event E)) (s : UniSystem E),
      UniRun R w factory tr s →
        StageOrder chain s ∧
        (∀ act s' es, UniSystem.step R w s act = some (s', es) →
          ∀ e ∈ es, ∀ c c' t, chain.Before c c' → e.Hands c' t →
            t ≤ s.memory.consumerCursors c) ∧
        (∀ op nNext g v, s.producer.pc = .getAfter op nNext g → g.step R s.memory = .inr v →
          ∀ c < w.consumers.length, v ≤ s.memory.consumerCursors c)) ∧
    (∃ w, chain.build buildMultiProducerUnchecked = some w ∧
      ∀ (R : MultiRingSize) (factory : Nat → E) (tr : List (Event E)) (s : MultiSystem E),
      MultiRun R w factory tr s →
        StageOrder chain s ∧
        (∀ act s' es, MultiSystem.step R.toRingSize w s act = some (s', es) →
          ∀ e ∈ es, ∀ c c' t, chain.Before c c' → e.Hands c' t →
            t ≤ s.memory.consumerCursors c) ∧
        (∀ h op current nNext g v, (s.producer.handles h).pc = .getAfter op current nNext g →
          g.step R.toRingSize s.memory = .inr v →
          ∀ c < w.consumers.length, v ≤ s.memory.consumerCursors c)) := by
  constructor
  · refine ⟨_, chain.build_eq .uniProducer, fun R factory tr s hRun => ?_⟩
    have hWired := chain.wired .uniProducer
    have hInv := hRun.inv hWired
    refine ⟨hInv.consistent.stageOrder, ?_, ?_⟩
    · intro act s' es hs e he c c' t hBefore hHands
      cases uniStep_cases hs with
      | consumer hSpec hStep => exact hInv.consistent.hands hWired hSpec hStep he hHands hBefore
      | producer hStep => exact (hStep.ofProducer e he hHands.ofConsumer).elim
    · intro op nNext g v hPc hg c hc
      have hOk := hInv.pc
      rw [hPc] at hOk
      have hPassed := (hOk.2.2.2.step hInv.consistent.represents (by omega)).2 v hg
      exact hInv.consistent.inv.le_cursor hPassed ((hWired.mem_iff c).mpr hc)
  · refine ⟨_, chain.build_eq .multiProducer, fun R factory tr s hRun => ?_⟩
    have hWired := chain.wired .multiProducer
    have hInv := hRun.inv hWired
    refine ⟨hInv.consistent.stageOrder, ?_, ?_⟩
    · intro act s' es hs e he c c' t hBefore hHands
      cases multiStep_cases hs with
      | consumer hSpec hStep => exact hInv.consistent.hands hWired hSpec hStep he hHands hBefore
      | handle hStep => exact (hStep.ofProducer e he hHands.ofConsumer).elim
      | clone => simp at he
      | dropLast => simp at he
      | drop => simp at he
    · intro h op current nNext g v hPc hg c hc
      have hOk := hInv.handle h
      simp only [MultiProducer.Ok, hPc] at hOk
      have hPassed := (hOk.2.step hInv.consistent.represents (by omega)).2 v hg
      exact hInv.consistent.inv.le_cursor hPassed ((hWired.mem_iff c).mpr hc)

end Calvera
