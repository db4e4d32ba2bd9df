import Calvera.Refinement.FreeSlots
import Calvera.Refinement.Multi
import Calvera.Refinement.Uni

/-!
# Refinement — a producer that runs alone

What `next_sequences` returns when nothing else moves meanwhile: `Ok` when
enough slots are free, `Err` with the number of missing slots otherwise, unless
an addition overflows. The cached bound does not show in the result: it only
decides whether the consumers are asked.

* `MultiInv.alone_refused`, `MultiInv.alone_claimed`, `MultiInv.alone_overflowed`
* `UniInv.alone_refused`, `UniInv.alone_claimed`
-/

namespace Calvera

open Calvera.Lib Calvera.Protocol

variable {E : Type} {R : RingSize} {T : Topology Nat} {w : Wiring} {tr : List (Event E)}

/-- The number of missing slots fits its type. -/
theorem missing_eq {n : Nat} {free : Int} (hn : n < 2 ^ 63) (hFree : 0 ≤ free) (hlt : free < n) :
    asUnsigned (asI64 n - free) = (n - free).toNat := by
  rw [asI64_of_lt hn]
  exact asUnsigned_of_nonneg (by omega) (by simp only [i64Max]; omega)

-- ---------------------------------------------------------------------------
-- Many producers
-- ---------------------------------------------------------------------------

namespace MultiSystem

/-- The next step of handle `h`. -/
def alone (R : RingSize) (w : Wiring) (h : Nat) (s : MultiSystem E) :
    Option (MultiSystem E × List (Event E)) :=
  step R w s (.producer (.handle h .tick))

/-- Handle `h` is somewhere else in its program. -/
def atPc (s : MultiSystem E) (h : Nat) (pc : MultiPc E) : MultiSystem E :=
  { s with producer := s.producer.setHandle h { s.producer.handles h with pc := pc } }

/-- Handle `h` has cached the bound `clear`. -/
def atBound (s : MultiSystem E) (h : Nat) (clear : Int) : MultiSystem E :=
  let p := { s.producer.handles h with sequenceClearOfConsumers := clear }
  { s with producer := s.producer.setHandle h p }

/-- `next_sequences` of handle `h` has returned `Ok(n_next)`, with the bound
`clear` cached. -/
def claimed (s : MultiSystem E) (h : Nat) (op : Op E) (nNext clear : Int) : MultiSystem E :=
  let p := { s.producer.handles h with sequenceClearOfConsumers := clear }
  { s with
    memory := s.memory.setCursor nNext
    producer := s.producer.setHandle h (p.claim h op s.memory.cursor nNext).1 }

variable {s s' : MultiSystem E} {h : Nat} {pc pc' : MultiPc E} {es : List (Event E)}

@[simp] theorem atPc_memory : (s.atPc h pc).memory = s.memory := rfl

@[simp] theorem atPc_consumers : (s.atPc h pc).consumers = s.consumers := rfl

@[simp] theorem atPc_handles :
    (s.atPc h pc).producer.handles h = { s.producer.handles h with pc := pc } := by
  simp [atPc, SharedProducers.setHandle]

@[simp] theorem atPc_atPc : (s.atPc h pc).atPc h pc' = s.atPc h pc' := by
  simp [atPc, SharedProducers.setHandle]

theorem atPc_self (hPc : (s.producer.handles h).pc = pc) : s.atPc h pc = s := by
  subst hPc
  simp [atPc, SharedProducers.setHandle]

theorem atBound_self : s.atBound h (s.producer.handles h).sequenceClearOfConsumers = s := by
  simp [atBound, SharedProducers.setHandle]

/-- A step that changes the program counter only. -/
theorem alone_from (hs : multiProducerStep R w.consumerBarrier w.consumerHandles
      (fun c => (s.consumers c).isExited) h s.memory { s.producer.handles h with pc := pc } .tick =
        some (s.memory, { s.producer.handles h with pc := pc' }, es)) :
    alone R w h (s.atPc h pc) = some (s.atPc h pc', es) := by
  simp only [alone, step, atPc_memory, atPc_consumers, atPc_handles, hs]
  simp [atPc, SharedProducers.setHandle]

/-- The cached bound does. -/
theorem alone_fast {op : Op E} {current nNext : Int}
    (hFast : nNext ≤ (s.producer.handles h).sequenceClearOfConsumers) :
    alone R w h (s.atPc h (.check op current nNext)) =
      some (s.atPc h (.compareExchange op current nNext), []) :=
  alone_from (by simp [multiProducerStep, hFast])

/-- The compare-exchange of a handle that runs alone succeeds. -/
theorem alone_exchange (op : Op E) (nNext clear : Int) :
    alone R w h ((s.atBound h clear).atPc h (.compareExchange op s.memory.cursor nNext)) =
      some (s.claimed h op nNext clear, [.claimed h (s.memory.cursor + 1) nNext op.update]) := by
  simp [alone, step, multiProducerStep, atBound, atPc, SharedProducers.setHandle,
    MultiProducer.claim, claimed]

theorem alone_exchange_self {op : Op E} {nNext : Int} :
    alone R w h (s.atPc h (.compareExchange op s.memory.cursor nNext)) =
      some (s.claimed h op nNext (s.producer.handles h).sequenceClearOfConsumers,
        [.claimed h (s.memory.cursor + 1) nNext op.update]) := by
  have hExchange := alone_exchange (R := R) (w := w) (s := s) (h := h) op nNext
    (s.producer.handles h).sequenceClearOfConsumers
  rwa [atBound_self] at hExchange

section

variable {ρ : Type*} {outcome : List (Event E) → Option ρ} {r : ρ}

/-- The cursor is loaded, and `n_next` does not overflow. -/
theorem current_iff (hSilent : outcome [] = none) {op : Op E}
    (hIn : InI64 (s.memory.cursor + op.nI64)) :
    Drives (alone R w h) outcome (s.atPc h (.current op)) r s' ↔
      Drives (alone R w h) outcome
        (s.atPc h (.check op s.memory.cursor (s.memory.cursor + op.nI64))) r s' :=
  Drives.advance_iff (alone_from (by simp [multiProducerStep, MultiProducer.loop, addI64, hIn]))
    hSilent

/-- Handle `h` reads the consumer cursors to the end. -/
theorem getAfter_iff (hSilent : outcome [] = none) {op : Op E} {current nNext v : Int} {fuel : Nat}
    {g : GetAfter} (hRun : g.run R s.memory fuel = some v) :
    Drives (alone R w h) outcome (s.atPc h (.getAfter op current nNext g)) r s' ↔
      Drives (alone R w h) outcome (s.atPc h (.freeSlots op current nNext v)) r s' := by
  induction fuel generalizing g with
  | zero => cases hRun
  | succ fuel ih =>
    rw [GetAfter.run] at hRun
    cases hg : g.step R s.memory with
    | inl g' =>
      rw [hg] at hRun
      have hStep : alone R w h (s.atPc h (.getAfter op current nNext g)) =
          some (s.atPc h (.getAfter op current nNext g'), []) :=
        alone_from (by simp [multiProducerStep, hg])
      exact (Drives.advance_iff hStep hSilent).trans (ih hRun)
    | inr v' =>
      rw [hg] at hRun
      obtain rfl := Option.some.inj hRun
      have hStep : alone R w h (s.atPc h (.getAfter op current nNext g)) =
          some (s.atPc h (.freeSlots op current nNext v'), []) :=
        alone_from (by simp [multiProducerStep, hg])
      exact Drives.advance_iff hStep hSilent

end

end MultiSystem

namespace MultiInv

variable {s s' : MultiSystem E} {h : Nat} {op : Op E} {nNext : Int} {es : List (Event E)}

open MultiSystem

theorem freeSlots_nonneg (hInv : MultiInv R T tr s) (hWired : Wired T .multiProducer w) :
    0 ≤ Calvera.freeSlots R w s.memory := by
  have := hInv.consistent.minCursor_bounds hWired
  unfold Calvera.freeSlots
  omega

/-- Calling between calls goes to loading the cursor. -/
theorem call_eq (hIdle : (s.producer.handles h).pc = .idle) (op : Op E) :
    MultiSystem.step R w s (.producer (.handle h (.call op))) =
      some (s.atPc h (.current op), []) := by
  simp [MultiSystem.step, multiProducerStep, hIdle, MultiSystem.atPc]

/-- The addition of `next_sequences` overflows. -/
theorem alone_overflowed (hNot : ¬ InI64 (s.memory.cursor + op.nI64)) :
    Drives (alone R w h) emitted (s.atPc h (.current op)) [.overflowed h] (s.atPc h .overflowed) :=
  .emit (alone_from (by simp [multiProducerStep, MultiProducer.loop, addI64, hNot]))

/-- The cached bound does not do, so the consumers are asked. -/
theorem slow_iff {ρ : Type*} {outcome : List (Event E) → Option ρ} {r : ρ}
    (hInv : MultiInv R T tr s) (hWired : Wired T .multiProducer w)
    (hlt : (s.producer.handles h).sequenceClearOfConsumers < nNext) (hSilent : outcome [] = none) :
    Drives (alone R w h) outcome (s.atPc h (.check op s.memory.cursor nNext)) r s' ↔
      Drives (alone R w h) outcome
        (s.atPc h (.freeSlots op s.memory.cursor nNext (minCursor w s.memory))) r s' := by
  obtain ⟨fuel, hRun⟩ := hInv.consistent.consumerBarrier_run hWired s.memory.cursor
  have hStep : alone R w h (s.atPc h (.check op s.memory.cursor nNext)) =
      some (s.atPc h (.getAfter op s.memory.cursor nNext
        (w.consumerBarrier.getAfter s.memory.cursor)), []) :=
    alone_from (by simp [multiProducerStep, hlt])
  exact (Drives.advance_iff hStep hSilent).trans (getAfter_iff hSilent hRun)

/-- The free slots, as the code computes them from the minimum of all cursors. -/
theorem freeSlots_eq (hInv : MultiInv R T tr s) (hWired : Wired T .multiProducer w) :
    R.freeSlots s.memory.cursor (minCursor w s.memory) = some (Calvera.freeSlots R w s.memory) := by
  obtain ⟨hGe, hLe, -⟩ := hInv.consistent.minCursor_bounds hWired
  rw [R.freeSlots_of_bounds hInv.cursor_ge hInv.consistent.claimed_le hGe hLe, Calvera.freeSlots]
  congr 1
  omega

/-- The cached bound is never too high. -/
theorem clear_le (hInv : MultiInv R T tr s) (hWired : Wired T .multiProducer w) (h : Nat) :
    (s.producer.handles h).sequenceClearOfConsumers ≤
      s.memory.cursor + Calvera.freeSlots R w s.memory := by
  have hRear : (s.producer.handles h).sequenceClearOfConsumers - R.size ≤ minCursor w s.memory :=
    (le_minCursor_iff hWired).mpr fun c hMem => by
      have := hInv.clear h c hMem
      omega
  unfold Calvera.freeSlots
  omega

/-! ### With the answer of the consumers -/

/-- Too few slots are free. -/
theorem freeSlots_refused (hInv : MultiInv R T tr s) (hWired : Wired T .multiProducer w)
    {missing : Nat} (hMissing : missing = asUnsigned (op.nI64 - Calvera.freeSlots R w s.memory))
    (hlt : Calvera.freeSlots R w s.memory < op.nI64) :
    alone R w h (s.atPc h (.freeSlots op s.memory.cursor nNext (minCursor w s.memory))) =
      some (s.atPc h (if op.spins then .current op else .idle),
        .refused h missing :: if op.spins then [] else [.returned h (op.failure missing)]) := by
  apply alone_from
  cases hSpins : op.spins <;>
    simp [multiProducerStep, hInv.freeSlots_eq hWired, hlt, MultiProducer.refuse, hSpins, hMissing]

/-- Enough slots are free, and the new bound fits. -/
theorem freeSlots_accepted (hInv : MultiInv R T tr s) (hWired : Wired T .multiProducer w)
    (hle : op.nI64 ≤ Calvera.freeSlots R w s.memory)
    (hMax : InI64 (s.memory.cursor + Calvera.freeSlots R w s.memory)) :
    alone R w h (s.atPc h (.freeSlots op s.memory.cursor nNext (minCursor w s.memory))) =
      some ((s.atBound h (s.memory.cursor + Calvera.freeSlots R w s.memory)).atPc h
        (.compareExchange op s.memory.cursor nNext), []) := by
  simp [alone, MultiSystem.step, multiProducerStep, hInv.freeSlots_eq hWired, addI64, hMax,
    Int.not_lt.mpr hle, atPc, atBound, SharedProducers.setHandle]

/-- Enough slots are free, and the new bound overflows. -/
theorem freeSlots_overflowed (hInv : MultiInv R T tr s) (hWired : Wired T .multiProducer w)
    (hle : op.nI64 ≤ Calvera.freeSlots R w s.memory)
    (hMax : ¬ InI64 (s.memory.cursor + Calvera.freeSlots R w s.memory)) :
    alone R w h (s.atPc h (.freeSlots op s.memory.cursor nNext (minCursor w s.memory))) =
      some (s.atPc h .overflowed, [.overflowed h]) :=
  alone_from (by simp [multiProducerStep, hInv.freeSlots_eq hWired, addI64, hMax,
    Int.not_lt.mpr hle])

/-- The new bound can only be too high. -/
theorem bound_overflows (hInv : MultiInv R T tr s) (hWired : Wired T .multiProducer w) :
    ¬ InI64 (s.memory.cursor + Calvera.freeSlots R w s.memory) ↔
      i64Max < s.memory.cursor + Calvera.freeSlots R w s.memory := by
  have hBounds := hInv.consistent.minCursor_bounds hWired
  have := R.size_le
  unfold Calvera.freeSlots
  simp only [InI64, NONE, i64Min, i64Max] at *
  omega

/-! ### To the next visible step -/

/-- **Too few free slots**: the call is refused with the number of missing
slots, and nothing else has changed. -/
theorem alone_refused (hInv : MultiInv R T tr s) (hWired : Wired T .multiProducer w)
    (hIn : InI64 (s.memory.cursor + op.nI64)) {missing : Nat}
    (hMissing : missing = asUnsigned (op.nI64 - Calvera.freeSlots R w s.memory))
    (hlt : Calvera.freeSlots R w s.memory < op.nI64) :
    Drives (alone R w h) emitted (s.atPc h (.current op))
      (.refused h missing :: if op.spins then [] else [.returned h (op.failure missing)])
      (s.atPc h (if op.spins then .current op else .idle)) := by
  have hSlow : (s.producer.handles h).sequenceClearOfConsumers < s.memory.cursor + op.nI64 := by
    have := hInv.clear_le hWired h
    omega
  rw [current_iff rfl hIn, hInv.slow_iff hWired hSlow rfl]
  exact .emit (hInv.freeSlots_refused hWired hMissing hlt)

/-- **Enough free slots**: the call claims the next `n` sequences, unless the
new bound overflows. -/
theorem alone_claimed (hInv : MultiInv R T tr s) (hWired : Wired T .multiProducer w)
    (hIn : InI64 (s.memory.cursor + op.nI64)) (hle : op.nI64 ≤ Calvera.freeSlots R w s.memory) :
    (∃ s', Drives (alone R w h) emitted (s.atPc h (.current op))
      [.claimed h (s.memory.cursor + 1) (s.memory.cursor + op.nI64) op.update] s') ∨
    i64Max < s.memory.cursor + Calvera.freeSlots R w s.memory ∧
      ∃ s', Drives (alone R w h) emitted (s.atPc h (.current op)) [.overflowed h] s' := by
  have hSilent : emitted ([] : List (Event E)) = none := rfl
  simp only [current_iff hSilent hIn]
  by_cases hFast : s.memory.cursor + op.nI64 ≤ (s.producer.handles h).sequenceClearOfConsumers
  · -- the cached bound says so at once
    exact .inl ⟨_, .silent (alone_fast hFast) (.emit alone_exchange_self)⟩
  · simp only [hInv.slow_iff hWired (Int.not_le.mp hFast) hSilent]
    by_cases hMax : InI64 (s.memory.cursor + Calvera.freeSlots R w s.memory)
    · -- the consumers say so, and the bound is cached
      exact .inl ⟨_, .silent (hInv.freeSlots_accepted hWired hle hMax)
        (.emit (alone_exchange op _ _))⟩
    · exact .inr ⟨(hInv.bound_overflows hWired).mp hMax, _,
        .emit (hInv.freeSlots_overflowed hWired hle hMax)⟩

end MultiInv

-- ---------------------------------------------------------------------------
-- One producer
-- ---------------------------------------------------------------------------

namespace UniSystem

/-- The next step of the producer. -/
def alone (R : RingSize) (w : Wiring) (s : UniSystem E) : Option (UniSystem E × List (Event E)) :=
  step R w s (.producer .tick)

/-- The producer is somewhere else in its program. -/
def atPc (s : UniSystem E) (pc : UniPc E) : UniSystem E :=
  { s with producer := { s.producer with pc := pc } }

/-- `next_sequences` has returned `Ok(n_next)`, with the bound `clear` cached. -/
def claimed (s : UniSystem E) (op : Op E) (nNext clear : Int) : UniSystem E :=
  { s with
    producer := (UniProducer.claim { s.producer with sequenceClearOfConsumers := clear } op nNext).1 }

variable {s s' : UniSystem E} {pc pc' : UniPc E} {es : List (Event E)}

@[simp] theorem atPc_memory : (s.atPc pc).memory = s.memory := rfl

@[simp] theorem atPc_sequence : (s.atPc pc).producer.sequence = s.producer.sequence := rfl

theorem atPc_self (hPc : s.producer.pc = pc) : s.atPc pc = s := by
  subst hPc
  rfl

/-- A step that changes the program counter only. -/
theorem alone_from (hs : uniProducerStep R w.consumerBarrier w.consumerHandles
      (fun c => (s.consumers c).isExited) s.memory { s.producer with pc := pc } .tick =
        some (s.memory, { s.producer with pc := pc' }, es)) :
    alone R w (s.atPc pc) = some (s.atPc pc', es) := by
  simp only [alone, step, atPc, hs]

/-- The cached bound does. -/
theorem alone_fast {op : Op E} {nNext : Int}
    (hFast : nNext ≤ s.producer.sequenceClearOfConsumers) :
    alone R w (s.atPc (.check op nNext)) =
      some (s.claimed op nNext s.producer.sequenceClearOfConsumers,
        [.claimed 0 s.producer.sequence nNext op.update]) := by
  simp [alone, step, uniProducerStep, atPc, Int.not_lt.mpr hFast, UniProducer.claim, claimed]

section

variable {ρ : Type*} {outcome : List (Event E) → Option ρ} {r : ρ}

/-- The producer reads the consumer cursors to the end. -/
theorem getAfter_iff (hSilent : outcome [] = none) {op : Op E} {nNext v : Int} {fuel : Nat}
    {g : GetAfter} (hRun : g.run R s.memory fuel = some v) :
    Drives (alone R w) outcome (s.atPc (.getAfter op nNext g)) r s' ↔
      Drives (alone R w) outcome (s.atPc (.freeSlots op nNext v)) r s' := by
  induction fuel generalizing g with
  | zero => cases hRun
  | succ fuel ih =>
    rw [GetAfter.run] at hRun
    cases hg : g.step R s.memory with
    | inl g' =>
      rw [hg] at hRun
      have hStep : alone R w (s.atPc (.getAfter op nNext g)) =
          some (s.atPc (.getAfter op nNext g'), []) := alone_from (by simp [uniProducerStep, hg])
      exact (Drives.advance_iff hStep hSilent).trans (ih hRun)
    | inr v' =>
      rw [hg] at hRun
      obtain rfl := Option.some.inj hRun
      have hStep : alone R w (s.atPc (.getAfter op nNext g)) =
          some (s.atPc (.freeSlots op nNext v'), []) := alone_from (by simp [uniProducerStep, hg])
      exact Drives.advance_iff hStep hSilent

end

end UniSystem

namespace UniInv

variable {s s' : UniSystem E} {op : Op E} {nNext : Int} {es : List (Event E)}

open UniSystem

/-- Between calls the claims end where the cursor of the barrier is. -/
theorem idle_consistent (hInv : UniInv R T tr s) (hIdle : s.producer.pc = .idle) :
    s.Consistent R T .uniProducer s.memory.cursor (publishedBy tr) := by
  have hClaimed : s.producer.claimed = s.memory.cursor := by
    rw [UniProducer.claimed, hIdle, hInv.cursor]
    exact Int.add_zero _
  exact hClaimed ▸ hInv.consistent

/-- The free slots, as the code computes them from the minimum of all cursors. -/
theorem freeSlots_eq (hInv : UniInv R T tr s) (hIdle : s.producer.pc = .idle)
    (hWired : Wired T .uniProducer w) :
    R.freeSlots (s.producer.sequence - 1) (minCursor w s.memory) =
      some (Calvera.freeSlots R w s.memory) := by
  have hConsistent := hInv.idle_consistent hIdle
  obtain ⟨hGe, hLe, -⟩ := hConsistent.minCursor_bounds hWired
  rw [← hInv.cursor, R.freeSlots_of_bounds (hGe.trans hLe) hConsistent.claimed_le hGe hLe,
    Calvera.freeSlots]
  congr 1
  omega

theorem freeSlots_nonneg (hInv : UniInv R T tr s) (hIdle : s.producer.pc = .idle)
    (hWired : Wired T .uniProducer w) : 0 ≤ Calvera.freeSlots R w s.memory := by
  have := (hInv.idle_consistent hIdle).minCursor_bounds hWired
  unfold Calvera.freeSlots
  omega

/-- The cached bound is never too high. -/
theorem clear_le (hInv : UniInv R T tr s) (hWired : Wired T .uniProducer w) :
    s.producer.sequenceClearOfConsumers ≤ s.memory.cursor + Calvera.freeSlots R w s.memory := by
  have hRear : s.producer.sequenceClearOfConsumers - R.size ≤ minCursor w s.memory :=
    (le_minCursor_iff hWired).mpr fun c hMem => by
      have := hInv.clear c hMem
      omega
  unfold Calvera.freeSlots
  omega

section

variable {ρ : Type*} {outcome : List (Event E) → Option ρ} {r : ρ}

/-- Asked, the consumers answer the minimum of their cursors. -/
theorem asked_iff (hInv : UniInv R T tr s) (hIdle : s.producer.pc = .idle)
    (hWired : Wired T .uniProducer w) (hSilent : outcome [] = none) :
    Drives (alone R w) outcome (s.atPc (.getAfter op nNext
        (w.consumerBarrier.getAfter (s.producer.sequence - 1)))) r s' ↔
      Drives (alone R w) outcome (s.atPc (.freeSlots op nNext (minCursor w s.memory))) r s' := by
  obtain ⟨fuel, hRun⟩ :=
    (hInv.idle_consistent hIdle).consumerBarrier_run hWired (s.producer.sequence - 1)
  exact getAfter_iff hSilent hRun

/-- The cached bound does not do, so the consumers are asked. -/
theorem slow_iff (hInv : UniInv R T tr s) (hIdle : s.producer.pc = .idle)
    (hWired : Wired T .uniProducer w) (hlt : s.producer.sequenceClearOfConsumers < nNext)
    (hSilent : outcome [] = none) :
    Drives (alone R w) outcome (s.atPc (.check op nNext)) r s' ↔
      Drives (alone R w) outcome (s.atPc (.freeSlots op nNext (minCursor w s.memory))) r s' := by
  have hStep : alone R w (s.atPc (.check op nNext)) = some (s.atPc (.getAfter op nNext
      (w.consumerBarrier.getAfter (s.producer.sequence - 1))), []) :=
    alone_from (by simp [uniProducerStep, hlt])
  exact (Drives.advance_iff hStep hSilent).trans (hInv.asked_iff hIdle hWired hSilent)

end

/-- Entering `next_sequences` between calls. -/
theorem nextSequences_eq (hInv : UniInv R T tr s) (hIdle : s.producer.pc = .idle)
    (hIn : InI64 (s.memory.cursor + op.nI64)) (pc : UniPc E) :
    UniProducer.nextSequences { s.producer with pc := pc } op =
      ({ s.producer with pc := .check op (s.memory.cursor + op.nI64) }, []) := by
  have hGe := hInv.sequence
  have hLe := (hInv.idle_consistent hIdle).claimed_le
  have hCursor := hInv.cursor
  have hLast : InI64 (s.producer.sequence - 1) := by
    simp only [InI64, i64Min, i64Max] at hLe ⊢
    omega
  rw [hCursor] at hIn ⊢
  simp [UniProducer.nextSequences, subI64, addI64, hLast, hIn]

/-- Calling between calls goes to the test of the cached bound, unless the
addition overflows. -/
theorem call_eq (hInv : UniInv R T tr s) (hIdle : s.producer.pc = .idle) (op : Op E)
    (hIn : InI64 (s.memory.cursor + op.nI64)) :
    UniSystem.step R w s (.producer (.call op)) =
      some (s.atPc (.check op (s.memory.cursor + op.nI64)), []) := by
  have hNext := hInv.nextSequences_eq hIdle hIn .idle
  rw [← hIdle] at hNext
  simp [UniSystem.step, uniProducerStep, hIdle, UniSystem.atPc, hNext]

/-- A call that overflows at once says so. -/
theorem call_overflowed (hInv : UniInv R T tr s) (hIdle : s.producer.pc = .idle)
    (hNot : ¬ InI64 (s.memory.cursor + op.nI64)) :
    UniSystem.step R w s (.producer (.call op)) = some (s.atPc .overflowed, [.overflowed 0]) := by
  have hGe := hInv.sequence
  have hLe := (hInv.idle_consistent hIdle).claimed_le
  have hCursor := hInv.cursor
  have hLast : InI64 (s.producer.sequence - 1) := by
    simp only [InI64, i64Min, i64Max] at hLe ⊢
    omega
  rw [hCursor] at hNot
  simp [UniSystem.step, uniProducerStep, hIdle, UniSystem.atPc, UniProducer.nextSequences, subI64,
    addI64, hLast, hNot]

/-! ### With the answer of the consumers -/

/-- Too few slots are free. -/
theorem freeSlots_refused (hInv : UniInv R T tr s) (hIdle : s.producer.pc = .idle)
    (hWired : Wired T .uniProducer w) (hIn : InI64 (s.memory.cursor + op.nI64)) {missing : Nat}
    (hMissing : missing = asUnsigned (op.nI64 - Calvera.freeSlots R w s.memory))
    (hlt : Calvera.freeSlots R w s.memory < op.nI64) :
    alone R w (s.atPc (.freeSlots op (s.memory.cursor + op.nI64) (minCursor w s.memory))) =
      some (s.atPc (if op.spins then .check op (s.memory.cursor + op.nI64) else .idle),
        .refused 0 missing :: if op.spins then [] else [.returned 0 (op.failure missing)]) := by
  apply alone_from
  cases hSpins : op.spins <;>
    simp [uniProducerStep, hInv.freeSlots_eq hIdle hWired, hlt, UniProducer.refuse, hSpins, hMissing,
      hInv.nextSequences_eq hIdle hIn]

/-- Enough slots are free, and the new bound fits. -/
theorem freeSlots_claimed (hInv : UniInv R T tr s) (hIdle : s.producer.pc = .idle)
    (hWired : Wired T .uniProducer w) (hle : op.nI64 ≤ Calvera.freeSlots R w s.memory)
    (hMax : InI64 (s.memory.cursor + Calvera.freeSlots R w s.memory)) :
    alone R w (s.atPc (.freeSlots op nNext (minCursor w s.memory))) =
      some (s.claimed op nNext (s.memory.cursor + Calvera.freeSlots R w s.memory),
        [.claimed 0 s.producer.sequence nNext op.update]) := by
  have hLast : s.producer.sequence - 1 = s.memory.cursor := hInv.cursor.symm
  have hFree := hInv.freeSlots_eq hIdle hWired
  rw [hLast] at hFree
  simp [alone, UniSystem.step, uniProducerStep, atPc, hFree, hLast, addI64, hMax,
    Int.not_lt.mpr hle, UniProducer.claim, claimed]

/-- Enough slots are free, and the new bound overflows. -/
theorem freeSlots_overflowed (hInv : UniInv R T tr s) (hIdle : s.producer.pc = .idle)
    (hWired : Wired T .uniProducer w) (hle : op.nI64 ≤ Calvera.freeSlots R w s.memory)
    (hMax : ¬ InI64 (s.memory.cursor + Calvera.freeSlots R w s.memory)) :
    alone R w (s.atPc (.freeSlots op nNext (minCursor w s.memory))) =
      some (s.atPc .overflowed, [.overflowed 0]) := by
  have hLast : s.producer.sequence - 1 = s.memory.cursor := hInv.cursor.symm
  have hFree := hInv.freeSlots_eq hIdle hWired
  rw [hLast] at hFree
  exact alone_from (by simp [uniProducerStep, hFree, hLast, addI64, hMax, Int.not_lt.mpr hle])

/-- The new bound can only be too high. -/
theorem bound_overflows (hInv : UniInv R T tr s) (hIdle : s.producer.pc = .idle)
    (hWired : Wired T .uniProducer w) :
    ¬ InI64 (s.memory.cursor + Calvera.freeSlots R w s.memory) ↔
      i64Max < s.memory.cursor + Calvera.freeSlots R w s.memory := by
  have hBounds := (hInv.idle_consistent hIdle).minCursor_bounds hWired
  have := R.size_le
  unfold Calvera.freeSlots
  simp only [InI64, NONE, i64Min, i64Max] at *
  omega

/-! ### To the next visible step -/

/-- **Too few free slots**: the call is refused with the number of missing
slots, and nothing else has changed. -/
theorem alone_refused (hInv : UniInv R T tr s) (hIdle : s.producer.pc = .idle)
    (hWired : Wired T .uniProducer w) (hIn : InI64 (s.memory.cursor + op.nI64)) {missing : Nat}
    (hMissing : missing = asUnsigned (op.nI64 - Calvera.freeSlots R w s.memory))
    (hlt : Calvera.freeSlots R w s.memory < op.nI64) :
    Drives (alone R w) emitted (s.atPc (.check op (s.memory.cursor + op.nI64)))
      (.refused 0 missing :: if op.spins then [] else [.returned 0 (op.failure missing)])
      (s.atPc (if op.spins then .check op (s.memory.cursor + op.nI64) else .idle)) := by
  have hSlow : s.producer.sequenceClearOfConsumers < s.memory.cursor + op.nI64 := by
    have := hInv.clear_le hWired
    omega
  exact (hInv.slow_iff hIdle hWired hSlow rfl).mpr
    (.emit (hInv.freeSlots_refused hIdle hWired hIn hMissing hlt))

/-- **Enough free slots**: the call claims the next `n` sequences, unless the
new bound overflows. -/
theorem alone_claimed (hInv : UniInv R T tr s) (hIdle : s.producer.pc = .idle)
    (hWired : Wired T .uniProducer w) (hle : op.nI64 ≤ Calvera.freeSlots R w s.memory) :
    (∃ s', Drives (alone R w) emitted (s.atPc (.check op (s.memory.cursor + op.nI64)))
      [.claimed 0 s.producer.sequence (s.memory.cursor + op.nI64) op.update] s') ∨
    i64Max < s.memory.cursor + Calvera.freeSlots R w s.memory ∧
      ∃ s', Drives (alone R w) emitted (s.atPc (.check op (s.memory.cursor + op.nI64)))
        [.overflowed 0] s' := by
  by_cases hFast : s.memory.cursor + op.nI64 ≤ s.producer.sequenceClearOfConsumers
  · -- the cached bound says so at once
    exact .inl ⟨_, .emit (alone_fast hFast)⟩
  · have hSlow := Int.not_le.mp hFast
    by_cases hMax : InI64 (s.memory.cursor + Calvera.freeSlots R w s.memory)
    · -- the consumers say so
      exact .inl ⟨_, (hInv.slow_iff hIdle hWired hSlow rfl).mpr
        (.emit (hInv.freeSlots_claimed hIdle hWired hle hMax))⟩
    · exact .inr ⟨(hInv.bound_overflows hIdle hWired).mp hMax, _,
        (hInv.slow_iff hIdle hWired hSlow rfl).mpr
          (.emit (hInv.freeSlots_overflowed hIdle hWired hle hMax))⟩

end UniInv

end Calvera
