import Calvera.Lib.Weakening
import Calvera.Refinement.WeakConsumers

/-!
# Refinement — weaker orderings

A disruptor in which some orderings are missing follows every run of one in which
fewer are: the threads load the same values, and the logs agree except for what
happened before what. So a race that one missing ordering leads to is there
whatever else is missing.

Main results:

* `WeakUniRun.weaken`, `WeakMultiRun.weaken` — the run with fewer orderings.
* `WeakSystem.Below.raceFree`                — which races if the other does.
-/

namespace Calvera

open Calvera.Lib Calvera.Lib.ReleaseAcquire

variable {E P Q : Type} {o o' : Orderings} {R : RingSize} {w : Wiring}

/-- What is missing in `o'` is missing in `o`. -/
structure Orderings.Below (o o' : Orderings) : Prop where
  cursorStore : o.cursorStore = true → o'.cursorStore = true
  cursorExchange : o.cursorExchange = true → o'.cursorExchange = true
  waitFence : o.waitFence = true → o'.waitFence = true
  pollFence : o.pollFence = true → o'.pollFence = true
  uniFence : o.uniFence = true → o'.uniFence = true
  multiFence : o.multiFence = true → o'.multiFence = true
  batchFence : o.batchFence = true → o'.batchFence = true
  publish : o.publish = true → o'.publish = true

-- ---------------------------------------------------------------------------
-- What a step performs
-- ---------------------------------------------------------------------------

theorem fence_acquire {b b' : Bool} (h : b = true → b' = true) :
    OpBelow (fence b .acquireFence) (fence b' .acquireFence) := by
  cases b <;> cases b'
  · exact .refl _
  · exact .acquireFence
  · exact absurd (h rfl) Bool.false_ne_true
  · exact .refl _

theorem fence_release {b b' : Bool} (h : b = true → b' = true) :
    OpBelow (fence b .releaseFence) (fence b' .releaseFence) := by
  cases b <;> cases b'
  · exact .refl _
  · exact .releaseFence
  · exact absurd (h rfl) Bool.false_ne_true
  · exact .refl _

theorem ConsumerPc.performs_below (h : o.Below o') (c : Nat) (m : Memory E) (pc pc' : ConsumerPc) :
    OpBelow (pc.performs o c m pc') (pc.performs o' c m pc') := by
  unfold performs
  split
  · exact fence_acquire h.waitFence
  · exact .refl _
  · exact .store h.cursorStore
  · exact fence_acquire h.pollFence
  · exact .refl _
  · exact .store h.cursorStore
  · exact .refl _

theorem UniProducer.performs_below (h : o.Below o') (m : Memory E) (p p' : UniProducer E) :
    OpBelow (p.performs o m p') (p.performs o' m p') := by
  unfold performs
  split
  · exact fence_acquire h.uniFence
  · exact fence_acquire h.uniFence
  · exact .refl _
  · exact .refl _
  · exact .store h.cursorStore
  · exact .refl _
  · exact .refl _

theorem MultiProducer.performs_below (h : o.Below o') (m : Memory E) (p p' : MultiProducer E) :
    OpBelow (p.performs o R m p') (p.performs o' R m p') := by
  unfold performs
  split
  · exact fence_acquire h.multiFence
  · exact .exchange h.cursorExchange h.cursorExchange
  · exact .exchange h.cursorExchange h.cursorExchange
  · exact .refl _
  · exact fence_release h.batchFence
  · exact .refl _
  · exact .exchange id h.publish
  · exact .refl _
  · exact .refl _
  · exact .refl _

-- ---------------------------------------------------------------------------
-- Steps
-- ---------------------------------------------------------------------------

/-- The same state, in which less happened before what. -/
structure WeakSystem.Below (s s' : WeakSystem P E) : Prop where
  machine : s.machine.Below s'.machine
  wellFormed : WellFormed s'.machine
  slots : s.slots = s'.slots
  consumers : s.consumers = s'.consumers
  producer : s.producer = s'.producer

namespace WeakSystem

variable {s s' s₁' : WeakSystem P E} {θ : Party} {k : Nat} {es : List (Event E)}

theorem Below.init (w : Wiring) (factory : Nat → E) (producer : P) :
    (WeakSystem.init w factory producer).Below (WeakSystem.init w factory producer) :=
  ⟨.init _, .init _, rfl, rfl, rfl⟩

/-- What was a race is one. -/
theorem Below.raceFree (h : s.Below s') (hFree : s.RaceFree R) : s'.RaceFree R := by
  by_contra hRace
  exact h.machine.not_ordered hRace hFree

theorem Below.memory (h : s.Below s') : s.memory = s'.memory := by
  rw [WeakSystem.memory, WeakSystem.memory, h.slots, h.machine.newest]

/-- The same value is found. -/
theorem Below.load (h : s.Below s') {loads : Option Loc} {M' : AtomicMachine} {m : Memory E}
    (hLoad : s'.load θ k loads = some (M', m)) :
    ∃ M, s.load θ k loads = some (M, m) ∧ M.Below M' ∧ WellFormed M' := by
  cases loads with
  | none =>
    cases hLoad
    exact ⟨s.machine, by rw [WeakSystem.load, h.memory], h.machine, h.wellFormed⟩
  | some x =>
    rw [WeakSystem.load] at hLoad
    split at hLoad
    · cases hLoad
    · rename_i hFound
      cases hLoad
      obtain ⟨M, hFound', hBelow⟩ := h.machine.load hFound
      have hWf := h.wellFormed.load hFound
      refine ⟨M, ?_, hBelow, hWf⟩
      simp only [WeakSystem.load, hFound', h.slots, h.machine.newest, hBelow.value hWf]

/-- **A step of one thread is followed.** -/
theorem Below.run (h : s.Below s') {loads : Option Loc}
    {step : Memory E → Option (Memory E × Q × List (Event E))}
    {performs performs' : Memory E → Q → Option AtomicOp}
    (hPerforms : ∀ m q, OpBelow (performs m q) (performs' m q)) {q : Q}
    (hRun : s'.run θ k loads step performs' = some (s₁', q, es)) :
    ∃ s₁, s.run θ k loads step performs = some (s₁, q, es) ∧ s₁.Below s₁' := by
  obtain ⟨M', m, m', M₁', hLoad, hStep, hPerform, rfl⟩ := run_cases hRun
  obtain ⟨M, hLoad', hBelow, hWf⟩ := h.load hLoad
  obtain ⟨M₁, hPerform', hBelow'⟩ := hBelow.perform? hWf (hPerforms m' q) hPerform
  refine ⟨{ s with machine := M₁, slots := m'.slots }, ?_, hBelow', ?_, rfl, h.consumers,
    h.producer⟩
  · simp only [WeakSystem.run, hLoad', hStep, hPerform']
  · cases hOp : performs' m' q with
    | none =>
      rw [hOp] at hPerform
      exact Option.some.inj hPerform ▸ hWf
    | some op =>
      rw [hOp] at hPerform
      exact hWf.perform (hPerform : M'.perform θ op = some M₁')

theorem Below.stepConsumer (h : s.Below s') (hOrderings : o.Below o') {c : Nat} {act : ConsumerAct}
    (hStep : s'.stepConsumer o' R w c k act = some (s₁', es)) :
    ∃ s₁, s.stepConsumer o R w c k act = some (s₁, es) ∧ s₁.Below s₁' := by
  unfold WeakSystem.stepConsumer at hStep ⊢
  rw [h.consumers]
  split at hStep
  · cases hStep
  · rename_i hSpec
    dsimp only at hStep ⊢
    split at hStep
    · cases hStep
    · rename_i hRun
      cases hStep
      obtain ⟨s₁, hRun', hBelow⟩ := h.run (fun m q => ConsumerPc.performs_below hOrderings c m _ q)
        hRun
      rw [hRun']
      exact ⟨_, rfl, hBelow.machine, hBelow.wellFormed, hBelow.slots, rfl, hBelow.producer⟩

theorem Below.access (h : s.Below s') {t : Int} {isWrite : Bool}
    (hStep : s'.access θ t isWrite = some (s₁', es)) :
    ∃ s₁, s.access θ t isWrite = some (s₁, es) ∧ s₁.Below s₁' := by
  unfold WeakSystem.access at hStep ⊢
  split at hStep
  · cases hStep
  · rename_i hPerform
    cases hStep
    obtain ⟨M, hPerform', hBelow⟩ := h.machine.access hPerform
    rw [hPerform']
    exact ⟨_, rfl, hBelow, h.wellFormed.perform hPerform, h.slots, h.consumers, h.producer⟩

theorem Below.accessConsumer (h : s.Below s') {c : Nat} {t : Int}
    (hStep : s'.accessConsumer w c t = some (s₁', es)) :
    ∃ s₁, s.accessConsumer w c t = some (s₁, es) ∧ s₁.Below s₁' := by
  unfold WeakSystem.accessConsumer at hStep ⊢
  rw [h.consumers, h.machine.value h.wellFormed]
  dsimp only at hStep ⊢
  split at hStep
  · rw [if_pos ‹_›]
    exact h.access hStep
  · cases hStep

end WeakSystem

-- ---------------------------------------------------------------------------
-- Runs
-- ---------------------------------------------------------------------------

theorem WeakUniSystem.step_below {s s' s₁' : WeakUniSystem E} {act : WeakAct (UniAct E)}
    {es : List (Event E)} (hOrderings : o.Below o') (h : WeakSystem.Below s s')
    (hStep : WeakUniSystem.step o' R w s' act = some (s₁', es)) :
    ∃ s₁, WeakUniSystem.step o R w s act = some (s₁, es) ∧ WeakSystem.Below s₁ s₁' := by
  match act with
  | .step (.consumer c act) k => exact h.stepConsumer hOrderings hStep
  | .step (.producer act) k =>
    simp only [WeakUniSystem.step, h.consumers, h.producer] at hStep ⊢
    split at hStep
    · cases hStep
    · rename_i hRun
      cases hStep
      obtain ⟨s₁, hRun', hBelow⟩ :=
        h.run (fun m q => UniProducer.performs_below hOrderings m _ q) hRun
      rw [hRun']
      exact ⟨_, rfl, hBelow.machine, hBelow.wellFormed, hBelow.slots, hBelow.consumers, rfl⟩
  | .access (.consumer c) t => exact h.accessConsumer hStep
  | .access (.handle handle) t =>
    simp only [WeakUniSystem.step, h.producer] at hStep ⊢
    split at hStep
    · rw [if_pos ‹_›]
      exact h.access hStep
    · cases hStep

/-- **The run with fewer orderings.** -/
theorem WeakUniRun.weaken {factory : Nat → E} {tr : List (Event E)} {s' : WeakUniSystem E}
    (hOrderings : o.Below o') (h : WeakUniRun o' R w factory tr s') :
    ∃ s, WeakUniRun o R w factory tr s ∧ WeakSystem.Below s s' :=
  h.simulated (.init w factory _) (WeakUniSystem.step_below hOrderings)

theorem WeakMultiSystem.step_below {s s' s₁' : WeakMultiSystem E} {act : WeakAct (MultiAct E)}
    {es : List (Event E)} (hOrderings : o.Below o') (h : WeakSystem.Below s s')
    (hStep : WeakMultiSystem.step o' R w s' act = some (s₁', es)) :
    ∃ s₁, WeakMultiSystem.step o R w s act = some (s₁, es) ∧ WeakSystem.Below s₁ s₁' := by
  match act with
  | .step (.consumer c act) k => exact h.stepConsumer hOrderings hStep
  | .step (.producer (.handle handle act)) k =>
    simp only [WeakMultiSystem.step, h.consumers, h.producer] at hStep ⊢
    split at hStep
    · cases hStep
    · rename_i hRun
      cases hStep
      obtain ⟨s₁, hRun', hBelow⟩ :=
        h.run (fun m q => MultiProducer.performs_below hOrderings m _ q) hRun
      rw [hRun']
      exact ⟨_, rfl, hBelow.machine, hBelow.wellFormed, hBelow.slots, hBelow.consumers, rfl⟩
  | .step (.producer (.clone handle)) k | .step (.producer (.drop handle)) k =>
    simp only [WeakMultiSystem.step, h.producer] at hStep ⊢
    split at hStep <;> cases hStep
    exact ⟨_, rfl, h.machine, h.wellFormed, h.slots, h.consumers, rfl⟩
  | .access (.consumer c) t => exact h.accessConsumer hStep
  | .access (.handle handle) t =>
    simp only [WeakMultiSystem.step, h.producer] at hStep ⊢
    split at hStep
    · rw [if_pos ‹_›]
      exact h.access hStep
    · cases hStep

/-- **The run with fewer orderings.** -/
theorem WeakMultiRun.weaken {R : MultiRingSize} {factory : Nat → E} {tr : List (Event E)}
    {s' : WeakMultiSystem E} (hOrderings : o.Below o') (h : WeakMultiRun o' R w factory tr s') :
    ∃ s, WeakMultiRun o R w factory tr s ∧ WeakSystem.Below s s' :=
  h.simulated (.init w factory _) (WeakMultiSystem.step_below hOrderings)

end Calvera
