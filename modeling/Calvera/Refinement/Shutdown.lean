import Calvera.Refinement.Filled
import Mathlib.Data.Finset.Card

/-!
# Refinement — the last drop

`drop` of the last handle stores `shutdown_at_sequence`. The counter behind the
mutex is the number of live handles (`Lifecycle.counter`); when it is zero,
nothing is claimed any more, so the value read from the cursor is still right
when it is stored.

* `UniRun.closed`, `MultiRun.closed` — once stored, no handle is live, and the
  value is one more than the highest claim.
* `UniRun.store`, `MultiRun.store`   — the only steps that change it.
-/

namespace Calvera

open Calvera.Lib Calvera.Protocol

variable {E : Type} {R : RingSize} {T : Topology Nat} {w : Wiring} {factory : Nat → E}
  {tr es : List (Event E)}

/-- Consumers do not store `shutdown_at_sequence`, nor the producer cursor. -/
theorem ConsumerStep.producer_memory {b : Barrier} {c : Nat} {m m' : Memory E}
    {pc pc' : ConsumerPc} (h : ConsumerStep R b c m pc m' pc' es) :
    m'.shutdownAtSequence = m.shutdownAtSequence ∧ m'.cursor = m.cursor := by
  rcases h.memory with rfl | ⟨v, rfl⟩ <;> exact ⟨rfl, rfl⟩

-- ---------------------------------------------------------------------------
-- One producer
-- ---------------------------------------------------------------------------

/-- The producer has not been dropped. -/
def UniPc.live : UniPc E → Bool
  | .shutdown | .join _ | .dropped => false
  | _ => true

/-- `drop` has stored `shutdown_at_sequence`. -/
def UniPc.stored : UniPc E → Bool
  | .join _ | .dropped => true
  | _ => false

theorem UniPc.live_of_stored {pc : UniPc E} (h : pc.stored = true) : pc.live = false := by
  cases pc <;> simp_all [stored, live]

theorem UniPc.holds_of_not_live {pc : UniPc E} (h : pc.live = false) : pc.holds = false := by
  cases pc <;> simp_all [live, holds]

section UniStep

variable {barrier : Barrier} {handles : List Nat} {exited : Nat → Bool} {m m' : Memory E}
  {p p' : UniProducer E} {act : UniAct E}

theorem UniProducer.nextSequences_stored {op : Op E} (h : p.nextSequences op = (p', es)) :
    p'.pc.stored = false := by
  rcases nextSequences_cases h with ⟨rfl, -⟩ | ⟨rfl, -⟩ <;> rfl

theorem UniProducer.claim_stored {op : Op E} {nNext : Int} (h : p.claim op nNext = (p', es)) :
    p'.pc.stored = false := by
  obtain ⟨rfl, -⟩ := Prod.mk.inj h
  dsimp only
  split <;> rfl

theorem UniProducer.refuse_stored {op : Op E} {missing : Nat} (h : p.refuse op missing = (p', es)) :
    p'.pc.stored = false := by
  unfold refuse at h
  split at h
  · generalize hNext : p.nextSequences op = next at h
    obtain ⟨p'', es''⟩ := next
    obtain ⟨rfl, -⟩ := Prod.mk.inj h
    exact nextSequences_stored hNext
  · obtain ⟨rfl, -⟩ := Prod.mk.inj h
    rfl

/-- **A step of the producer stores `shutdown_at_sequence`, or leaves it alone.** -/
theorem UniStep.shutdown_cases (hs : UniStep R barrier handles exited m p act m' p' es) :
    (p.pc = .shutdown ∧ m'.shutdownAtSequence = p.sequence ∧ p'.sequence = p.sequence ∧
        p'.pc.stored = true) ∨
      (m'.shutdownAtSequence = m.shutdownAtSequence ∧ p'.pc.stored = p.pc.stored ∧
        (p.pc.stored = true → p'.sequence = p.sequence)) := by
  cases hs with
  | shutdown hPc => exact .inl ⟨hPc, rfl, rfl, rfl⟩
  | call hPc hNext =>
    exact .inr ⟨rfl, by rw [UniProducer.nextSequences_stored hNext, hPc]; rfl,
      by simp [hPc, UniPc.stored]⟩
  | fast hPc _ hClaim =>
    exact .inr ⟨rfl, by rw [UniProducer.claim_stored hClaim, hPc]; rfl, by simp [hPc, UniPc.stored]⟩
  | accept hPc _ _ _ hClaim =>
    exact .inr ⟨rfl, by rw [UniProducer.claim_stored hClaim, hPc]; rfl, by simp [hPc, UniPc.stored]⟩
  | refuse hPc _ _ hRefuse =>
    exact .inr ⟨rfl, by rw [UniProducer.refuse_stored hRefuse, hPc]; rfl, by simp [hPc, UniPc.stored]⟩
  | _ => exact .inr ⟨rfl, by simp [UniPc.stored, *], by simp [UniPc.stored, *]⟩

end UniStep

/-- `shutdown_at_sequence` holds `sequence` once it is stored. -/
theorem UniRun.shutdown_eq {s : UniSystem E} (h : UniRun R w factory tr s) :
    s.memory.shutdownAtSequence = if s.producer.pc.stored then s.producer.sequence else NONE := by
  refine Run.induct (P := fun _ s => s.memory.shutdownAtSequence =
    if s.producer.pc.stored then s.producer.sequence else NONE) rfl (fun _ ih _ hs => ?_) h
  cases uniStep_cases hs with
  | consumer _ hStep => exact hStep.producer_memory.1.trans ih
  | producer hStep =>
    rcases hStep.shutdown_cases with ⟨-, hStore, hSequence, hStored⟩ | ⟨hKeep, hStored, hSequence⟩
    · simp [hStore, hSequence, hStored]
    · dsimp only
      rw [hKeep, ih, hStored]
      split
      · rw [hSequence ‹_›]
      · rfl

/-- **Once `shutdown_at_sequence` is stored**, the producer is dropped, and the
value is one more than the highest claim. -/
theorem UniRun.closed {s : UniSystem E} (hWired : Wired T .uniProducer w)
    (h : UniRun R w factory tr s) (hStored : s.memory.shutdownAtSequence ≠ NONE) :
    s.producer.pc.stored = true ∧ s.memory.shutdownAtSequence = s.memory.cursor + 1 := by
  have hEq := h.shutdown_eq
  split at hEq <;> rename_i hPc
  · rw [(UniRun.inv hWired h).cursor, hEq]
    exact ⟨hPc, by omega⟩
  · exact (hStored hEq).elim

/-- **Only `drop` of the producer changes `shutdown_at_sequence`**, once. -/
theorem UniRun.store {s s' : UniSystem E} (h : UniRun R w factory tr s) {act : Act (UniAct E)}
    (hs : UniSystem.step R w s act = some (s', es))
    (hne : s'.memory.shutdownAtSequence ≠ s.memory.shutdownAtSequence) :
    s.memory.shutdownAtSequence = NONE ∧ s.producer.pc.live = false ∧
      s'.memory.shutdownAtSequence = s.producer.sequence := by
  cases uniStep_cases hs with
  | consumer _ hStep => exact (hne hStep.producer_memory.1).elim
  | producer hStep =>
    rcases hStep.shutdown_cases with ⟨hPc, hStore, -⟩ | ⟨hKeep, -⟩
    · have hEq := h.shutdown_eq
      rw [hPc] at hEq ⊢
      exact ⟨hEq, rfl, hStore⟩
    · exact (hne hKeep).elim

-- ---------------------------------------------------------------------------
-- Many producers
-- ---------------------------------------------------------------------------

/-- The handle exists and has not been dropped. -/
def MultiPc.live : MultiPc E → Bool
  | .absent | .shutdownCurrent | .shutdownStore _ | .join _ | .dropped => false
  | _ => true

/-- The handle was the last one, and has still to store `shutdown_at_sequence`. -/
def MultiPc.closing : MultiPc E → Bool
  | .shutdownCurrent | .shutdownStore _ => true
  | _ => false

theorem MultiPc.holds_of_not_live {pc : MultiPc E} (h : pc.live = false) : pc.holds = false := by
  cases pc <;> simp_all [live, holds]

theorem MultiPc.not_closing_of_live {pc : MultiPc E} (h : pc.live = true) : pc.closing = false := by
  cases pc <;> simp_all [live, closing]

section MultiStep

variable {barrier : Barrier} {joins : List Nat} {exited : Nat → Bool} {h : Nat} {m m' : Memory E}
  {p p' : MultiProducer E} {act : HandleAct E}

theorem MultiProducer.loop_live {op : Op E} {current : Int} (hs : p.loop h op current = (p', es)) :
    p'.pc.live = true := by
  rcases loop_cases hs with ⟨rfl, -⟩ | ⟨rfl, -⟩ <;> rfl

theorem MultiProducer.claim_live {op : Op E} {current nNext : Int}
    (hs : p.claim h op current nNext = (p', es)) : p'.pc.live = true := by
  obtain ⟨rfl, -⟩ := Prod.mk.inj hs
  dsimp only
  split <;> rfl

theorem MultiProducer.refuse_live {op : Op E} {missing : Nat}
    (hs : p.refuse h op missing = (p', es)) : p'.pc.live = true := by
  unfold refuse at hs
  split at hs <;> obtain ⟨rfl, -⟩ := Prod.mk.inj hs <;> rfl

/-- A live handle stays live, and does not store `shutdown_at_sequence`; one
that is dropped stays dropped, and does not claim. -/
theorem MultiStep.live_cases (hs : MultiStep R barrier joins exited h m p act m' p' es) :
    (p.pc.live = true ∧ p'.pc.live = true ∧ m'.shutdownAtSequence = m.shutdownAtSequence) ∨
      (p.pc.live = false ∧ p'.pc.live = false ∧ m'.cursor = m.cursor) := by
  cases hs with
  | load hPc hLoop => exact .inl ⟨by rw [hPc]; rfl, MultiProducer.loop_live hLoop, rfl⟩
  | retry hPc _ hLoop => exact .inl ⟨by rw [hPc]; rfl, MultiProducer.loop_live hLoop, rfl⟩
  | refuse hPc _ _ hRefuse =>
    exact .inl ⟨by rw [hPc]; rfl, MultiProducer.refuse_live hRefuse, rfl⟩
  | claim hPc _ hClaim => exact .inl ⟨by rw [hPc]; rfl, MultiProducer.claim_live hClaim, rfl⟩
  | shutdownCurrent hPc => exact .inr ⟨by rw [hPc]; rfl, rfl, rfl⟩
  | shutdownStore hPc => exact .inr ⟨by rw [hPc]; rfl, rfl, rfl⟩
  | join hPc _ => exact .inr ⟨by rw [hPc]; rfl, rfl, rfl⟩
  | joined hPc => exact .inr ⟨by rw [hPc]; rfl, rfl, rfl⟩
  | _ => exact .inl ⟨by simp [MultiPc.live, *], rfl, rfl⟩

/-- What a dropped handle does to `shutdown_at_sequence`. -/
theorem MultiStep.shutdown_cases (hs : MultiStep R barrier joins exited h m p act m' p' es)
    (hPc : p.pc.live = false) :
    (p.pc = .shutdownCurrent ∧ p'.pc = .shutdownStore (m.cursor + 1) ∧
        m'.shutdownAtSequence = m.shutdownAtSequence) ∨
      (∃ q, p.pc = .shutdownStore q ∧ m'.shutdownAtSequence = q ∧ p'.pc.closing = false) ∨
      (p'.pc.closing = false ∧ m'.shutdownAtSequence = m.shutdownAtSequence) := by
  cases hs with
  | shutdownCurrent hAt => exact .inl ⟨hAt, rfl, rfl⟩
  | shutdownStore hAt => exact .inr (.inl ⟨_, hAt, rfl, rfl⟩)
  | join _ _ => exact .inr (.inr ⟨rfl, rfl⟩)
  | joined _ => exact .inr (.inr ⟨rfl, rfl⟩)
  | _ => simp_all [MultiPc.live]

end MultiStep

/-- The live handles. -/
def SharedProducers.live (ps : SharedProducers E) : Finset Nat :=
  (Finset.range ps.nextHandle).filter fun h => (ps.handles h).pc.live = true

@[simp] theorem SharedProducers.mem_live {ps : SharedProducers E} {h : Nat} :
    h ∈ ps.live ↔ h < ps.nextHandle ∧ (ps.handles h).pc.live = true := by
  simp [live]

/-- What `counter` and `shutdown_at_sequence` say about the handles. -/
structure Lifecycle (s : MultiSystem E) : Prop where
  counter : s.producer.counter = s.producer.live.card
  opened : s.producer.counter ≠ 0 → s.memory.shutdownAtSequence = NONE ∧
    ∀ h, (s.producer.handles h).pc.closing = false
  closed : s.producer.counter = 0 →
    (s.memory.shutdownAtSequence = NONE ∨ s.memory.shutdownAtSequence = s.memory.cursor + 1) ∧
      ∀ h q, (s.producer.handles h).pc = .shutdownStore q → q = s.memory.cursor + 1

namespace Lifecycle

variable {s s' : MultiSystem E} {h : Nat}

/-- With no handle counted, none is live. -/
theorem not_live (hL : Lifecycle s) (hInv : MultiInv R T tr s) (hZero : s.producer.counter = 0)
    (h : Nat) : (s.producer.handles h).pc.live = false := by
  have hEmpty : s.producer.live = ∅ := by
    have := hL.counter
    exact Finset.card_eq_zero.mp (by omega)
  by_contra hLive
  rw [Bool.not_eq_false] at hLive
  have hName := hInv.name_lt (h := h) (by rintro hPc; rw [hPc] at hLive; cases hLive)
  have hMem : h ∈ s.producer.live := SharedProducers.mem_live.mpr ⟨hName, hLive⟩
  rw [hEmpty] at hMem
  simp at hMem

/-- A live handle is counted. -/
theorem counted (hInv : MultiInv R T tr s) (hLive : (s.producer.handles h).pc.live = true) :
    h ∈ s.producer.live := by
  have hName := hInv.name_lt (h := h) (by rintro hPc; rw [hPc] at hLive; cases hLive)
  exact SharedProducers.mem_live.mpr ⟨hName, hLive⟩

theorem pos_of_live (hL : Lifecycle s) (hInv : MultiInv R T tr s)
    (hLive : (s.producer.handles h).pc.live = true) : 0 < s.producer.counter := by
  have := Finset.card_pos.mpr ⟨h, counted hInv hLive⟩
  have := hL.counter
  omega

theorem init : Lifecycle (MultiSystem.init R w factory) := by
  have hHandles : ∀ h, (MultiSystem.init R w factory).producer.handles h =
      if h = 0 then .new R else .none := fun h => by
    simp [MultiSystem.init, System.init, SharedProducers.new, Function.update_apply]
  refine ⟨?_, fun _ => ⟨rfl, ?_⟩, ?_⟩
  · have hLive : (MultiSystem.init R w factory).producer.live = {0} := by
      ext h
      rw [SharedProducers.mem_live, hHandles, Finset.mem_singleton]
      refine ⟨fun hh => Nat.lt_one_iff.mp hh.1, ?_⟩
      rintro rfl
      exact ⟨Nat.zero_lt_one, rfl⟩
    rw [hLive]
    rfl
  · intro h
    rw [hHandles]
    split <;> rfl
  · intro hZero
    exact absurd hZero (show (1 : Int) ≠ 0 by decide)

/-- A step of a handle keeps the count. -/
theorem handle_step (hL : Lifecycle s) (hInv : MultiInv R T tr s) {exited : Nat → Bool}
    {act : HandleAct E} {memory : Memory E} {p' : MultiProducer E}
    (hStep : MultiStep R w.consumerBarrier w.consumerHandles exited h s.memory
      (s.producer.handles h) act memory p' es) :
    Lifecycle { s with memory := memory, producer := s.producer.setHandle h p' } := by
  have hSame : p'.pc.live = (s.producer.handles h).pc.live := by
    rcases hStep.live_cases with ⟨hLive, hLive', -⟩ | ⟨hLive, hLive', -⟩ <;> rw [hLive, hLive']
  have hSet : (s.producer.setHandle h p').live = s.producer.live := by
    ext h'
    rw [SharedProducers.mem_live, SharedProducers.mem_live, SharedProducers.setHandle_handles]
    refine and_congr_right fun _ => ?_
    split
    · rename_i hEq
      rw [hSame, hEq]
    · rfl
  refine ⟨?_, ?_, ?_⟩
  · show s.producer.counter = _
    rw [hSet]
    exact hL.counter
  · intro hOpen
    -- the mutex counts at least one handle, so none is storing the shutdown
    obtain ⟨hNone, hClosing⟩ := hL.opened hOpen
    have hKeep : memory.shutdownAtSequence = s.memory.shutdownAtSequence ∧
        p'.pc.closing = false := by
      rcases hStep.live_cases with ⟨-, hLive', hKeep⟩ | ⟨hLive, -⟩
      · exact ⟨hKeep, MultiPc.not_closing_of_live hLive'⟩
      · rcases hStep.shutdown_cases hLive with ⟨hPc, -⟩ | ⟨q, hPc, -⟩ | ⟨hClosing', hKeep⟩
        · simpa [hPc, MultiPc.closing] using hClosing h
        · simpa [hPc, MultiPc.closing] using hClosing h
        · exact ⟨hKeep, hClosing'⟩
    refine ⟨hKeep.1.trans hNone, fun h' => ?_⟩
    rw [SharedProducers.setHandle_handles]
    split
    · exact hKeep.2
    · exact hClosing h'
  · intro hZero
    obtain ⟨hStored, hStore⟩ := hL.closed hZero
    have hDead := hL.not_live hInv hZero h
    have hCursor : memory.cursor = s.memory.cursor := by
      rcases hStep.live_cases with ⟨hLive, -⟩ | ⟨-, -, hCursor⟩
      · rw [hDead] at hLive
        cases hLive
      · exact hCursor
    simp only [SharedProducers.setHandle_handles, hCursor]
    rcases hStep.shutdown_cases hDead with ⟨-, hPc', hKeep⟩ | ⟨q, hPc, hNew, hClosing⟩ |
      ⟨hClosing, hKeep⟩
    · refine ⟨hKeep ▸ hStored, fun h' q hq => ?_⟩
      split at hq
      · rw [hPc'] at hq
        cases hq
        rfl
      · exact hStore h' q hq
    · refine ⟨.inr (hNew.trans (hStore h q hPc)), fun h' q' hq => ?_⟩
      split at hq
      · rw [hq] at hClosing
        cases hClosing
      · exact hStore h' q' hq
    · refine ⟨hKeep ▸ hStored, fun h' q hq => ?_⟩
      split at hq
      · rw [hq] at hClosing
        cases hClosing
      · exact hStore h' q hq

/-- Dropping an idle handle takes it from the live ones. -/
theorem live_dropped {pc : MultiPc E} (hDead : pc.live = false) (counter : Int) (locked : Bool) :
    SharedProducers.live
      { s.producer.setHandle h { s.producer.handles h with pc := pc } with
        counter := counter
        locked := locked } = s.producer.live.erase h := by
  ext h'
  rw [SharedProducers.mem_live, Finset.mem_erase, SharedProducers.mem_live]
  rcases eq_or_ne h' h with rfl | hne
  · simp [SharedProducers.setHandle, hDead]
  · simp [SharedProducers.setHandle, hne]

/-- A clone joins the live ones. -/
theorem live_cloned {ps : SharedProducers E}
    (hHandles : ps.handles = Function.update s.producer.handles s.producer.nextHandle .cloned)
    (hName : ps.nextHandle = s.producer.nextHandle + 1) :
    ps.live.card = s.producer.live.card + 1 := by
  have hInsert : ps.live = insert s.producer.nextHandle s.producer.live := by
    ext h'
    rw [SharedProducers.mem_live, Finset.mem_insert, SharedProducers.mem_live, hHandles, hName]
    rcases eq_or_ne h' s.producer.nextHandle with rfl | hne
    · simp [MultiProducer.cloned, MultiPc.live]
    · simp only [Function.update_of_ne hne, hne, false_or]
      refine and_congr_left fun _ => ?_
      omega
  rw [hInsert, Finset.card_insert_of_notMem fun hMem => ?_]
  exact absurd (SharedProducers.mem_live.mp hMem).1 (Nat.lt_irrefl _)

/-- **Every step keeps the count.** -/
theorem step (hL : Lifecycle s) (hInv : MultiInv R T tr s) {act : Act (MultiAct E)}
    (hStep : MultiSystemStep R w s act s' es) : Lifecycle s' := by
  cases hStep with
  | consumer _ hStep =>
    obtain ⟨hShutdown, hCursor⟩ := hStep.producer_memory
    refine ⟨hL.counter, ?_, ?_⟩
    · intro hOpen
      simp only [hShutdown]
      exact hL.opened hOpen
    · intro hZero
      simp only [hShutdown, hCursor]
      exact hL.closed hZero
  | handle hStep => exact hL.handle_step hInv hStep
  | @clone h hPc _ =>
    have hPos := hL.pos_of_live hInv (h := h) (by rw [hPc]; rfl)
    obtain ⟨hNone, hClosing⟩ := hL.opened (by omega)
    refine ⟨?_, fun _ => ⟨hNone, ?_⟩, ?_⟩
    · rw [live_cloned rfl rfl, Nat.cast_succ, ← hL.counter]
    · intro h'
      show (Function.update s.producer.handles _ _ h').pc.closing = false
      rcases eq_or_ne h' s.producer.nextHandle with rfl | hne
      · rw [Function.update_self]
        rfl
      · rw [Function.update_of_ne hne]
        exact hClosing h'
    · intro hZero
      have hZero' : s.producer.counter + 1 = 0 := hZero
      omega
  | @dropLast h hPc hOne =>
    obtain ⟨hNone, hClosing⟩ := hL.opened (by omega)
    have hLive : (s.producer.handles h).pc.live = true := by rw [hPc]; rfl
    refine ⟨?_, ?_, fun _ => ⟨.inl hNone, ?_⟩⟩
    · rw [live_dropped (by trivial), Finset.card_erase_of_mem (counted hInv hLive)]
      have := hL.counter
      show s.producer.counter - 1 = _
      omega
    · intro hOpen
      have hOpen' : s.producer.counter - 1 ≠ 0 := hOpen
      omega
    · intro h' q hq
      -- the value is read only now, and nobody else stores one
      have hq' : (Function.update s.producer.handles _ _ h').pc = .shutdownStore q := hq
      rcases eq_or_ne h' h with rfl | hne
      · rw [Function.update_self] at hq'
        cases hq'
      · rw [Function.update_of_ne hne] at hq'
        have := hClosing h'
        rw [hq'] at this
        cases this
  | @drop h hPc hMany =>
    have hLive : (s.producer.handles h).pc.live = true := by rw [hPc]; rfl
    have hPos := hL.pos_of_live hInv hLive
    obtain ⟨hNone, hClosing⟩ := hL.opened (by omega)
    refine ⟨?_, fun _ => ⟨hNone, ?_⟩, ?_⟩
    · rw [live_dropped (by trivial), Finset.card_erase_of_mem (counted hInv hLive)]
      have := hL.counter
      show s.producer.counter - 1 = _
      omega
    · intro h'
      show (Function.update s.producer.handles _ _ h').pc.closing = false
      rcases eq_or_ne h' h with rfl | hne
      · rw [Function.update_self]
        rfl
      · rw [Function.update_of_ne hne]
        exact hClosing h'
    · intro hZero
      have hZero' : s.producer.counter - 1 = 0 := hZero
      omega

end Lifecycle

variable {R : MultiRingSize} {s s' : MultiSystem E}

theorem MultiRun.lifecycle (hWired : Wired T .multiProducer w) (h : MultiRun R w factory tr s) :
    Lifecycle s :=
  MultiRun.rule hWired (P := fun _ s => Lifecycle s) .init
    (fun _ hInv _ hL hStep => hL.step hInv hStep) h

/-- **Once `shutdown_at_sequence` is stored**, no handle is live, and the value
is one more than the highest claim. -/
theorem MultiRun.closed (hWired : Wired T .multiProducer w) (h : MultiRun R w factory tr s)
    (hStored : s.memory.shutdownAtSequence ≠ NONE) :
    (∀ h, (s.producer.handles h).pc.live = false) ∧
      s.memory.shutdownAtSequence = s.memory.cursor + 1 := by
  have hL := MultiRun.lifecycle hWired h
  by_cases hZero : s.producer.counter = 0
  · exact ⟨hL.not_live (MultiRun.inv hWired h) hZero, (hL.closed hZero).1.resolve_left hStored⟩
  · exact (hStored (hL.opened hZero).1).elim

/-- **Only `drop` of the last handle changes `shutdown_at_sequence`**, once. -/
theorem MultiRun.store (hWired : Wired T .multiProducer w) (h : MultiRun R w factory tr s)
    {act : Act (MultiAct E)} (hs : MultiSystem.step R.toRingSize w s act = some (s', es))
    (hne : s'.memory.shutdownAtSequence ≠ s.memory.shutdownAtSequence) :
    s.memory.shutdownAtSequence = NONE ∧ (∀ h, (s.producer.handles h).pc.live = false) ∧
      s'.memory.shutdownAtSequence = s.memory.cursor + 1 := by
  have hInv := MultiRun.inv hWired h
  have hL := MultiRun.lifecycle hWired h
  cases multiStep_cases hs with
  | consumer _ hStep => exact (hne hStep.producer_memory.1).elim
  | @handle h _ _ _ _ hStep =>
    have hDead : (s.producer.handles h).pc.live = false := by
      rcases hStep.live_cases with ⟨-, -, hKeep⟩ | ⟨hDead, -⟩
      · exact (hne hKeep).elim
      · exact hDead
    rcases hStep.shutdown_cases hDead with ⟨-, -, hKeep⟩ | ⟨q, hPc, hNew, -⟩ | ⟨-, hKeep⟩
    · exact (hne hKeep).elim
    · -- the handle is storing, so none is counted any more
      have hZero : s.producer.counter = 0 := by
        by_contra hOpen
        have := (hL.opened hOpen).2 h
        rw [hPc] at this
        cases this
      obtain ⟨hStored, hStore⟩ := hL.closed hZero
      have hEq := hNew.trans (hStore h q hPc)
      exact ⟨hStored.resolve_right fun hOld => hne (hEq.trans hOld.symm), hL.not_live hInv hZero, hEq⟩
    · exact (hne hKeep).elim
  | clone => exact (hne rfl).elim
  | dropLast => exact (hne rfl).elim
  | drop => exact (hne rfl).elim

end Calvera
