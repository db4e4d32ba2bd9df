import Calvera.Code.Consumer
import Calvera.Code.MultiProducer
import Calvera.Lib.Run

/-!
# Calvera — a running disruptor

The disruptor a builder returns, as one system: the shared memory, the
consumers and the producer side, with any interleaving of their steps. The
system of a `UniProducer` is `UniSystem`, that of the `MultiProducer` handles
is `MultiSystem`; the consumers are the same in both.

`UniRun` and `MultiRun` are the runs whose calls pass an `n` with
`n as i64 = n`. An addition of `next_sequences` that overflows stops the thread
(`UniPc.overflowed`, `MultiPc.overflowed`). The source documents a limit of
`2^63 - 1` events; with one more, when `i64::MAX` itself is claimed, the
successor of a sequence overflows as well, which is computed exactly here.
-/

namespace Calvera

variable {E P A : Type}

/-- The state of a disruptor with producer side `P`. -/
structure System (P E : Type) where
  memory : Memory E
  consumers : Nat → ConsumerPc
  producer : P

/-- A step of a consumer, or of the producer side. -/
inductive Act (A : Type) where
  | consumer (c : Nat) (act : ConsumerAct)
  | producer (act : A)

/-- The thread has ended. -/
def ConsumerPc.isExited : ConsumerPc → Bool
  | .exited => true
  | _ => false

namespace System

/-- The state in which `build` leaves everything. -/
def init (w : Wiring) (factory : Nat → E) (producer : P) : System P E where
  memory := .init factory
  consumers := fun c =>
    match w.consumers[c]? with
    | some spec => spec.start
    | none => .exited
  producer := producer

/-- A step of consumer `c`. -/
def stepConsumer (R : RingSize) (w : Wiring) (s : System P E) (c : Nat) (act : ConsumerAct) :
    Option (System P E × List (Event E)) :=
  match w.consumers[c]? with
  | none => none
  | some spec =>
    match consumerStep R spec.dependentBarrier c s.memory (s.consumers c) act with
    | none => none
    | some (memory, pc, es) =>
      some ({ s with memory := memory, consumers := Function.update s.consumers c pc }, es)

theorem stepConsumer_cases {R : RingSize} {w : Wiring} {s s' : System P E} {c : Nat}
    {act : ConsumerAct} {es : List (Event E)} (h : s.stepConsumer R w c act = some (s', es)) :
    ∃ spec memory pc, w.consumers[c]? = some spec ∧
      ConsumerStep R spec.dependentBarrier c s.memory (s.consumers c) memory pc es ∧
      s' = { s with memory := memory, consumers := Function.update s.consumers c pc } := by
  unfold stepConsumer at h
  split at h
  · cases h
  · rename_i spec hSpec
    split at h
    · cases h
    · rename_i memory pc es' hStep
      cases h
      exact ⟨spec, memory, pc, hSpec, consumerStep_cases hStep, rfl⟩

end System

/-- The action is one of consumer `c`. -/
def Act.isOf (c : Nat) : Act A → Bool
  | .consumer c' _ => c' == c
  | .producer _ => false

/-- A step of either kind of system as the consumers see it: one of them moves,
or the producer side does. -/
inductive SystemMove (R : RingSize) (w : Wiring) (s : System P E) :
    Act A → System P E → List (Event E) → Prop
  | consumer {c act spec memory pc es} : w.consumers[c]? = some spec →
      ConsumerStep R spec.dependentBarrier c s.memory (s.consumers c) memory pc es →
      SystemMove R w s (.consumer c act)
        { s with memory := memory, consumers := Function.update s.consumers c pc } es
  | producer {act s' es} : s'.consumers = s.consumers →
      s'.memory.consumerCursors = s.memory.consumerCursors → (∀ e ∈ es, ¬ e.OfConsumer) →
      SystemMove R w s (.producer act) s' es

-- ---------------------------------------------------------------------------
-- Single producer
-- ---------------------------------------------------------------------------

abbrev UniSystem (E : Type) := System (UniProducer E) E

namespace UniSystem

def init (R : RingSize) (w : Wiring) (factory : Nat → E) : UniSystem E :=
  System.init w factory (.new R)

def step (R : RingSize) (w : Wiring) (s : UniSystem E) :
    Act (UniAct E) → Option (UniSystem E × List (Event E))
  | .consumer c act => s.stepConsumer R w c act
  | .producer act =>
    match uniProducerStep R w.consumerBarrier w.consumerHandles (fun c => (s.consumers c).isExited)
      s.memory s.producer act with
    | none => none
    | some (memory, producer, es) => some ({ s with memory := memory, producer := producer }, es)

end UniSystem

/-- The calls of an action pass an `n` with `n as i64 = n`. -/
def UniAct.InRange : Act (UniAct E) → Prop
  | .producer (.call op) => op.InRange
  | _ => True

instance : DecidablePred (UniAct.InRange : Act (UniAct E) → Prop)
  | .producer (.call op) => inferInstanceAs (Decidable op.InRange)
  | .producer .tick | .producer (.unwind _) | .producer .drop | .consumer _ _ =>
    inferInstanceAs (Decidable True)

/-- A run of a single-producer disruptor. -/
abbrev UniRun (R : RingSize) (w : Wiring) (factory : Nat → E) :
    List (Event E) → UniSystem E → Prop :=
  Lib.Run (UniSystem.step R w) UniAct.InRange (UniSystem.init R w factory)

/-- The steps of a single-producer disruptor. -/
inductive UniSystemStep (R : RingSize) (w : Wiring) (s : UniSystem E) :
    Act (UniAct E) → UniSystem E → List (Event E) → Prop
  | consumer {c act spec memory pc es} : w.consumers[c]? = some spec →
      ConsumerStep R spec.dependentBarrier c s.memory (s.consumers c) memory pc es →
      UniSystemStep R w s (.consumer c act)
        { s with memory := memory, consumers := Function.update s.consumers c pc } es
  | producer {act memory producer es} :
      UniStep R w.consumerBarrier w.consumerHandles (fun c => (s.consumers c).isExited)
        s.memory s.producer act memory producer es →
      UniSystemStep R w s (.producer act) { s with memory := memory, producer := producer } es

theorem UniSystemStep.move {R : RingSize} {w : Wiring} {s s' : UniSystem E} {act : Act (UniAct E)}
    {es : List (Event E)} (h : UniSystemStep R w s act s' es) : SystemMove R w s act s' es := by
  cases h with
  | consumer hSpec hStep => exact .consumer hSpec hStep
  | producer hStep => exact .producer rfl hStep.consumerCursors hStep.ofProducer

theorem uniStep_cases {R : RingSize} {w : Wiring} {s s' : UniSystem E} {act : Act (UniAct E)}
    {es : List (Event E)} (h : UniSystem.step R w s act = some (s', es)) :
    UniSystemStep R w s act s' es := by
  cases act with
  | consumer c act =>
    obtain ⟨spec, memory, pc, hSpec, hStep, rfl⟩ := System.stepConsumer_cases h
    exact .consumer hSpec hStep
  | producer act =>
    rw [UniSystem.step] at h
    split at h
    · cases h
    · rename_i hStep
      cases h
      exact .producer (uniProducerStep_cases hStep)

-- ---------------------------------------------------------------------------
-- Multiple producers
-- ---------------------------------------------------------------------------

abbrev MultiSystem (E : Type) := System (SharedProducers E) E

inductive MultiAct (E : Type) where
  /-- A step of handle `h`. -/
  | handle (h : Nat) (act : HandleAct E)
  /-- Clone handle `h`. -/
  | clone (h : Nat)
  /-- Drop handle `h`. -/
  | drop (h : Nat)

namespace MultiSystem

def init (R : RingSize) (w : Wiring) (factory : Nat → E) : MultiSystem E :=
  System.init w factory (.new R)

def step (R : RingSize) (w : Wiring) (s : MultiSystem E) :
    Act (MultiAct E) → Option (MultiSystem E × List (Event E))
  | .consumer c act => s.stepConsumer R w c act
  | .producer (.handle h act) =>
    match multiProducerStep R w.consumerBarrier w.consumerHandles
      (fun c => (s.consumers c).isExited) h s.memory (s.producer.handles h) act with
    | none => none
    | some (memory, p, es) =>
      some ({ s with memory := memory, producer := s.producer.setHandle h p }, es)
  | .producer (.clone h) =>
    match s.producer.clone h with
    | none => none
    | some producer => some ({ s with producer := producer }, [])
  | .producer (.drop h) =>
    match s.producer.drop h with
    | none => none
    | some producer => some ({ s with producer := producer }, [])

end MultiSystem

/-- The calls of an action pass an `n` with `n as i64 = n`. -/
def MultiAct.InRange : Act (MultiAct E) → Prop
  | .producer (.handle _ (.call op)) => op.InRange
  | _ => True

instance : DecidablePred (MultiAct.InRange : Act (MultiAct E) → Prop)
  | .producer (.handle _ (.call op)) => inferInstanceAs (Decidable op.InRange)
  | .producer (.handle _ .tick) | .producer (.handle _ (.unwind _)) | .producer (.clone _)
  | .producer (.drop _) | .consumer _ _ => inferInstanceAs (Decidable True)

/-- A run of a multi-producer disruptor. -/
abbrev MultiRun (R : MultiRingSize) (w : Wiring) (factory : Nat → E) :
    List (Event E) → MultiSystem E → Prop :=
  Lib.Run (MultiSystem.step R.toRingSize w) MultiAct.InRange
    (MultiSystem.init R.toRingSize w factory)

/-- The steps of a multi-producer disruptor. -/
inductive MultiSystemStep (R : RingSize) (w : Wiring) (s : MultiSystem E) :
    Act (MultiAct E) → MultiSystem E → List (Event E) → Prop
  | consumer {c act spec memory pc es} : w.consumers[c]? = some spec →
      ConsumerStep R spec.dependentBarrier c s.memory (s.consumers c) memory pc es →
      MultiSystemStep R w s (.consumer c act)
        { s with memory := memory, consumers := Function.update s.consumers c pc } es
  | handle {h act memory p es} :
      MultiStep R w.consumerBarrier w.consumerHandles (fun c => (s.consumers c).isExited) h
        s.memory (s.producer.handles h) act memory p es →
      MultiSystemStep R w s (.producer (.handle h act))
        { s with memory := memory, producer := s.producer.setHandle h p } es
  | clone {h} : (s.producer.handles h).pc = .idle → s.producer.locked = false →
      MultiSystemStep R w s (.producer (.clone h))
        { s with
          producer :=
            { s.producer.setHandle s.producer.nextHandle .cloned with
              counter := s.producer.counter + 1
              nextHandle := s.producer.nextHandle + 1 } } []
  | dropLast {h} : (s.producer.handles h).pc = .idle → s.producer.counter = 1 →
      MultiSystemStep R w s (.producer (.drop h))
        { s with
          producer :=
            { s.producer.setHandle h { s.producer.handles h with pc := .shutdownCurrent } with
              counter := s.producer.counter - 1
              locked := true } } []
  | drop {h} : (s.producer.handles h).pc = .idle → s.producer.counter ≠ 1 →
      MultiSystemStep R w s (.producer (.drop h))
        { s with
          producer :=
            { s.producer.setHandle h { s.producer.handles h with pc := .dropped } with
              counter := s.producer.counter - 1
              locked := false } } []

theorem MultiSystemStep.move {R : RingSize} {w : Wiring} {s s' : MultiSystem E}
    {act : Act (MultiAct E)} {es : List (Event E)} (h : MultiSystemStep R w s act s' es) :
    SystemMove R w s act s' es := by
  cases h with
  | consumer hSpec hStep => exact .consumer hSpec hStep
  | handle hStep => exact .producer rfl hStep.consumerCursors hStep.ofProducer
  | clone => exact .producer rfl rfl (by simp)
  | dropLast => exact .producer rfl rfl (by simp)
  | drop => exact .producer rfl rfl (by simp)

theorem multiStep_cases {R : RingSize} {w : Wiring} {s s' : MultiSystem E} {act : Act (MultiAct E)}
    {es : List (Event E)} (h : MultiSystem.step R w s act = some (s', es)) :
    MultiSystemStep R w s act s' es := by
  cases act with
  | consumer c act =>
    obtain ⟨spec, memory, pc, hSpec, hStep, rfl⟩ := System.stepConsumer_cases h
    exact .consumer hSpec hStep
  | producer act =>
    cases act with
    | handle h' act =>
      rw [MultiSystem.step] at h
      split at h
      · cases h
      · rename_i hStep
        cases h
        exact .handle (multiProducerStep_cases hStep)
    | clone h' =>
      rw [MultiSystem.step, SharedProducers.clone] at h
      split at h
      · cases h
      · rename_i producer hClone
        cases h
        split at hClone
        · split at hClone
          · cases hClone
          · rename_i hIdle hFree
            cases hClone
            simp only [Bool.or_eq_true, not_or, Bool.not_eq_true] at hFree
            exact .clone hIdle hFree.1
        · cases hClone
    | drop h' =>
      rw [MultiSystem.step, SharedProducers.drop] at h
      split at h
      · cases h
      · rename_i producer hDrop
        cases h
        split at hDrop
        · split at hDrop
          · cases hDrop
          · rename_i hIdle _
            cases hDrop
            by_cases hLast : s.producer.counter = 1
            · simpa [hLast] using MultiSystemStep.dropLast (R := R) (w := w) hIdle hLast
            · have hNot : (s.producer.counter == 1) = false := by simpa using hLast
              simp only [hNot, Bool.false_eq_true, if_false]
              exact .drop hIdle hLast
        · cases hDrop

end Calvera
