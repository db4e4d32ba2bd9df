import Calvera.Code.References
import Calvera.Refinement.Multi
import Calvera.Refinement.Uni

/-!
# Refinement — references into a batch

When the closure of every batch returns without references, what the client
still holds has not been published. With one producer it is not below the next
sequence (`UniHeld`), with many it is in the claim of the handle that it borrows,
or was abandoned when the closure unwound (`MultiHeld`).

Writing through references changes slots, on which the invariants of the
producers do not depend.
-/

namespace Calvera

open Calvera.Lib Calvera.Protocol

variable {E P A : Type} {R : RingSize} {T : Topology Nat} {w : Wiring} {factory : Nat → E}

-- ---------------------------------------------------------------------------
-- Steps of the client
-- ---------------------------------------------------------------------------

/-- What one step of a disruptor with its client does. -/
inductive ClientMove (R : RingSize) (sig : Signatures P A E)
    (step : System P E → Act A → Option (System P E × List (Event E))) (c : Client P E) :
    ClientAct A E → Client P E → List (Event E) → Prop
  | step {act keep system held es} : step c.system act = some (system, es) →
      (∀ h, ∀ t ∈ held h,
        sig.uses act ≠ some h ∧ t ∈ c.held h ∨ sig.yields c.system act = some (h, t)) →
      ClientMove R sig step c (.step act keep) ⟨system, held⟩ es
  | write {h sequence update} :
      ClientMove R sig step c (.write h sequence update)
        { c with
          system :=
            { c.system with memory := c.system.memory.updateSlot (R.slot sequence) update } } []
  | release {h sequence held} : (∀ h, held h ⊆ c.held h) →
      ClientMove R sig step c (.release h sequence) { c with held := held } []

theorem mem_endBorrow {held : Nat → List Int} {used : Option Nat} {h : Nat} {t : Int}
    (ht : t ∈ endBorrow held used h) : used ≠ some h ∧ t ∈ held h := by
  cases used with
  | none => exact ⟨by simp, ht⟩
  | some h' =>
    rcases eq_or_ne h h' with rfl | hne
    · simp [endBorrow] at ht
    · rw [endBorrow, Function.update_of_ne hne] at ht
      exact ⟨by simpa using hne.symm, ht⟩

theorem mem_addReference {held : Nat → List Int} {keep : Bool} {yielded : Option (Nat × Int)}
    {h : Nat} {t : Int} (ht : t ∈ addReference held keep yielded h) :
    t ∈ held h ∨ yielded = some (h, t) := by
  cases yielded with
  | none => exact .inl ht
  | some yielded =>
    obtain ⟨h', sequence⟩ := yielded
    cases keep with
    | false => exact .inl ht
    | true =>
      simp only [addReference, if_true] at ht
      rcases eq_or_ne h h' with rfl | hne
      · rw [Function.update_self, List.mem_cons] at ht
        rcases ht with rfl | ht
        · exact .inr rfl
        · exact .inl ht
      · rw [Function.update_of_ne hne] at ht
        exact .inl ht

theorem clientStep_cases {sig : Signatures P A E}
    {step : System P E → Act A → Option (System P E × List (Event E))} {c c' : Client P E}
    {act : ClientAct A E} {es : List (Event E)}
    (h : clientStep R sig step c act = some (c', es)) : ClientMove R sig step c act c' es := by
  cases act with
  | step act keep =>
    simp only [clientStep] at h
    split at h
    · cases h
    · rename_i system es' hs
      cases h
      exact .step hs fun h t ht => (mem_addReference ht).imp_left mem_endBorrow
  | write h' sequence update =>
    simp only [clientStep] at h
    split at h
    · cases h
      exact .write
    · cases h
  | release h' sequence =>
    cases h
    refine .release fun h t ht => ?_
    rcases eq_or_ne h h' with rfl | hne
    · rw [Function.update_self] at ht
      exact List.mem_of_mem_erase ht
    · rwa [Function.update_of_ne hne] at ht

-- ---------------------------------------------------------------------------
-- One producer
-- ---------------------------------------------------------------------------

/-- The producer is in a call, and not in the closure of a batch. -/
def UniPc.busy : UniPc E → Bool
  | .check _ _ | .getAfter _ _ _ | .freeSlots _ _ _ | .update _ | .publish _ => true
  | _ => false

/-- What is held is not published yet. -/
structure UniHeld (R : RingSize) (T : Topology Nat) (tr : List (Event E))
    (c : Client (UniProducer E) E) : Prop where
  inv : UniInv R T tr c.system
  only : ∀ h, h ≠ 0 → c.held h = []
  ahead : ∀ t ∈ c.held 0, c.system.producer.sequence ≤ t
  free : c.system.producer.pc.busy = true → c.held 0 = []

/-- Publishing moves the sequence, and nothing else does. -/
theorem UniStep.sequence {barrier : Barrier} {handles : List Nat} {exited : Nat → Bool}
    {m m' : Memory E} {p p' : UniProducer E} {act : UniAct E} {es : List (Event E)}
    (h : UniStep R barrier handles exited m p act m' p' es) :
    p'.sequence = p.sequence ∨ p.pc.busy = true := by
  cases h with
  | publish hPc => exact .inr (by rw [hPc]; rfl)
  | slow hPc => exact .inl rfl
  | fast hPc => exact .inr (by rw [hPc]; rfl)
  | accept hPc => exact .inr (by rw [hPc]; rfl)
  | refuse hPc => exact .inr (by rw [hPc]; rfl)
  | call hPc hNext =>
    obtain ⟨rfl, -⟩ | ⟨rfl, -⟩ := UniProducer.nextSequences_cases hNext <;> exact .inl rfl
  | _ => exact .inl rfl

theorem MutBatchIter.yields_eq_some {iter : MutBatchIter} {t : Int} (h : iter.yields = some t) :
    iter.current ≤ iter.last ∧ t = iter.current := by
  obtain ⟨⟨sequence, iter'⟩, hNext, rfl⟩ := Option.map_eq_some_iff.mp h
  obtain ⟨hLe, rfl, -⟩ := MutBatchIter.next_eq_some.mp hNext
  exact ⟨hLe, rfl⟩

/-- Only the closure of a batch yields references. -/
theorem UniPc.yields_eq_some {pc : UniPc E} {t : Int} (h : pc.yields = some t) :
    ∃ op iter k, pc = .updates op iter k ∧ iter.current ≤ iter.last ∧ t = iter.current := by
  cases pc with
  | updates op iter k => exact ⟨op, iter, k, rfl, MutBatchIter.yields_eq_some h⟩
  | _ => cases h

theorem uniSignatures_yields {s : UniSystem E} {act : Act (UniAct E)} {h : Nat} {t : Int}
    (hYields : uniSignatures.yields s act = some (h, t)) :
    h = 0 ∧ s.producer.pc.yields = some t := by
  have hPair : s.producer.pc.yields.map (fun t => (0, t)) = some (h, t) →
      h = 0 ∧ s.producer.pc.yields = some t := by
    intro hMap
    obtain ⟨t', hNext, hPair⟩ := Option.map_eq_some_iff.mp hMap
    obtain ⟨rfl, rfl⟩ := Prod.mk.inj hPair
    exact ⟨rfl, hNext⟩
  cases act with
  | consumer c act => cases hYields
  | producer act =>
    cases act with
    | tick => exact hPair hYields
    | unwind event => exact hPair hYields
    | _ => cases hYields

/-- A call keeps its handle to itself, but for the closure of a batch that goes on. -/
theorem UniStep.busy {exited : Nat → Bool} {s : UniSystem E} {act : UniAct E} {memory : Memory E}
    {p' : UniProducer E} {es : List (Event E)}
    (h : UniStep R w.consumerBarrier w.consumerHandles exited s.memory s.producer act memory p' es)
    (hBusy : p'.pc.busy = true) :
    (s.producer.pc.busy = true ∨ uniSignatures.uses (.producer act : Act (UniAct E)) = some 0 ∨
      uniSignatures.returns s (.producer act) = some 0) ∧
      ∀ op iter k, s.producer.pc = .updates op iter k → iter.last < iter.current := by
  have hIn : s.producer.pc.busy = true →
      (s.producer.pc.busy = true ∨ uniSignatures.uses (.producer act : Act (UniAct E)) = some 0 ∨
        uniSignatures.returns s (.producer act) = some 0) ∧
        ∀ op iter k, s.producer.pc = .updates op iter k → iter.last < iter.current := fun h =>
    ⟨.inl h, fun op iter k hPc => by rw [hPc] at h; cases h⟩
  cases h with
  | call hPc hNext => exact ⟨.inr (.inl rfl), fun op iter k hPc' => nomatch hPc.symm.trans hPc'⟩
  | @updatesEnd op iter k hPc hlt =>
    have hNone : iter.next = none := MutBatchIter.next_eq_none.mpr hlt
    refine ⟨.inr (.inr (by simp [uniSignatures, hPc, UniPc.returns, hNone])), ?_⟩
    intro op' iter' k' hPc'
    cases hPc.symm.trans hPc'
    exact hlt
  | slow hPc hlt => exact hIn (by rw [hPc]; rfl)
  | fast hPc hle hClaim => exact hIn (by rw [hPc]; rfl)
  | read hPc hg => exact hIn (by rw [hPc]; rfl)
  | answer hPc hg => exact hIn (by rw [hPc]; rfl)
  | refuse hPc => exact hIn (by rw [hPc]; rfl)
  | accept hPc => exact hIn (by rw [hPc]; rfl)
  | update hPc => exact hIn (by rw [hPc]; rfl)
  | _ => cases hBusy

/-- The invariant does not depend on what the slots hold. -/
theorem UniInv.updateSlot {s : UniSystem E} {tr : List (Event E)} {index : Nat} {update : E → E}
    (hInv : UniInv R T tr s) :
    UniInv R T tr { s with memory := s.memory.updateSlot index update } where
  consistent := ⟨hInv.consistent.reachable, ⟨hInv.consistent.represents.cursor,
    hInv.consistent.represents.published⟩, hInv.consistent.consumers, hInv.consistent.claimed_le⟩
  cursor := hInv.cursor
  sequence := hInv.sequence
  flipped := hInv.flipped
  clear := hInv.clear
  pc := hInv.pc

namespace UniHeld

variable {c : Client (UniProducer E) E} {tr es : List (Event E)} {held : Nat → List Int}

theorem init (hWired : Wired T .uniProducer w) :
    UniHeld R T [] (Client.init (UniSystem.init R w factory)) where
  inv := .init hWired
  only _ _ := rfl
  ahead _ ht := (List.not_mem_nil ht).elim
  free _ := rfl

/-- What is held is ahead of the cursor, and not flipped. -/
theorem hidden (hI : UniHeld R T tr c) {h : Nat} {t : Int} (ht : t ∈ c.held h) :
    c.system.memory.cursor < t ∧ t ∉ flips tr := by
  rcases eq_or_ne h 0 with rfl | hne
  · have hAhead := hI.ahead t ht
    refine ⟨?_, fun hFlipped => ?_⟩
    · rw [hI.inv.cursor]
      omega
    · rw [hI.inv.flipped, mem_seqRange] at hFlipped
      omega
  · rw [hI.only h hne] at ht
    cases ht

/-- What is yielded is not below the sequence. -/
theorem yielded (hI : UniHeld R T tr c) {act : Act (UniAct E)} {h : Nat} {t : Int}
    (hYields : uniSignatures.yields c.system act = some (h, t)) :
    c.system.producer.sequence ≤ t ∧ c.system.producer.pc.busy = false := by
  obtain ⟨op, iter, k, hPc, hLe, rfl⟩ :=
    UniPc.yields_eq_some (uniSignatures_yields hYields).2
  have hOk := hI.inv.pc
  rw [hPc] at hOk
  obtain ⟨-, -, hCurrent, -⟩ := hOk
  refine ⟨?_, by rw [hPc]; rfl⟩
  omega

/-- **A step of the producer.** -/
theorem producer (hI : UniHeld R T tr c) {exited : Nat → Bool} {act : UniAct E}
    {memory : Memory E} {p' : UniProducer E}
    (hStep : UniStep R w.consumerBarrier w.consumerHandles exited c.system.memory
      c.system.producer act memory p' es)
    (hInv : UniInv R T (tr ++ es) { c.system with memory := memory, producer := p' })
    (hHeld : ∀ h, ∀ t ∈ held h,
      uniSignatures.uses (.producer act : Act (UniAct E)) ≠ some h ∧ t ∈ c.held h ∨
        uniSignatures.yields c.system (.producer act) = some (h, t))
    (hConfined : ∀ h, uniSignatures.returns c.system (.producer act) = some h → c.held h = []) :
    UniHeld R T (tr ++ es) ⟨{ c.system with memory := memory, producer := p' }, held⟩ := by
  -- what is yielded goes to handle `0`, which is not busy afterwards
  have hYields : ∀ {h t}, uniSignatures.yields c.system (.producer act) = some (h, t) →
      h = 0 ∧ p'.pc.busy = false := by
    intro h t hYields
    obtain ⟨rfl, hNext⟩ := uniSignatures_yields hYields
    obtain ⟨op, iter, k, hPc, hLe, rfl⟩ := UniPc.yields_eq_some hNext
    refine ⟨rfl, ?_⟩
    by_contra hBusy
    have := (hStep.busy (by simpa using hBusy)).2 op iter k hPc
    omega
  refine ⟨hInv, ?_, ?_, ?_⟩
  · intro h hne
    rw [List.eq_nil_iff_forall_not_mem]
    intro t ht
    rcases hHeld h t ht with ⟨-, hOld⟩ | hNew
    · rw [hI.only h hne] at hOld
      cases hOld
    · exact hne (hYields hNew).1
  · intro t ht
    -- the sequence moves at publishing only, and then nothing is held
    rcases hHeld 0 t ht with ⟨-, hOld⟩ | hNew
    · rcases hStep.sequence with hSame | hBusy
      · rw [hSame]
        exact hI.ahead t hOld
      · rw [hI.free hBusy] at hOld
        cases hOld
    · obtain ⟨hLe, hFree⟩ := hI.yielded hNew
      rw [hStep.sequence.resolve_right (by simp [hFree])]
      exact hLe
  · intro hBusy
    rw [List.eq_nil_iff_forall_not_mem]
    intro t ht
    rcases hHeld 0 t ht with ⟨hUnused, hOld⟩ | hNew
    · rcases (hStep.busy hBusy).1 with hWas | hUses | hReturns
      · rw [hI.free hWas] at hOld
        cases hOld
      · exact hUnused hUses
      · rw [hConfined 0 hReturns] at hOld
        cases hOld
    · rw [(hYields hNew).2] at hBusy
      cases hBusy

/-- Fewer references, and the same producer. -/
theorem mono (hI : UniHeld R T tr c) {system : UniSystem E} (hInv : UniInv R T (tr ++ es) system)
    (hProducer : system.producer = c.system.producer) (hHeld : ∀ h, held h ⊆ c.held h) :
    UniHeld R T (tr ++ es) ⟨system, held⟩ := by
  refine ⟨hInv, ?_, ?_, ?_⟩
  · intro h hne
    exact List.eq_nil_of_subset_nil (hI.only h hne ▸ hHeld h)
  · intro t ht
    exact (congrArg UniProducer.sequence hProducer).trans_le (hI.ahead t (hHeld 0 ht))
  · intro hBusy
    have hNone := hI.free (hProducer ▸ hBusy)
    exact List.eq_nil_of_subset_nil (hNone ▸ hHeld 0)

/-- **Every step of the client** keeps what is held ahead of the cursor. -/
theorem step (hI : UniHeld R T tr c) (hWired : Wired T .uniProducer w)
    {act : ClientAct (UniAct E) E} {c' : Client (UniProducer E) E}
    (hRange : act.ok UniAct.InRange)
    (hs : clientStep R uniSignatures (UniSystem.step R w) c act = some (c', es))
    (hConfined : c.Confined uniSignatures act) : UniHeld R T (tr ++ es) c' := by
  cases clientStep_cases hs with
  | @step act keep system held es hs hHeld =>
    have hInv := hI.inv.step hWired hRange hs
    cases uniStep_cases hs with
    | producer hStep => exact hI.producer hStep hInv hHeld hConfined
    | consumer hSpec hStep =>
      refine hI.mono hInv rfl fun h t ht => ?_
      rcases hHeld h t ht with ⟨-, hOld⟩ | hNew
      · exact hOld
      · cases hNew
  | write =>
    rw [List.append_nil]
    exact ⟨hI.inv.updateSlot, hI.only, hI.ahead, hI.free⟩
  | release hHeld =>
    refine hI.mono ?_ rfl hHeld
    rw [List.append_nil]
    exact hI.inv

end UniHeld

theorem UniClientPath.held (hWired : Wired T .uniProducer w)
    {ts : List (Transition (Client (UniProducer E) E) (ClientAct (UniAct E) E) (Event E))}
    {c : Client (UniProducer E) E} (h : UniClientPath R w factory ts c)
    (hConfined : ∀ t ∈ ts, t.source.Confined uniSignatures t.act) :
    UniHeld R T (ts.flatMap Transition.events) c := by
  induction h with
  | nil => exact .init hWired
  | snoc _ hRange hs ih =>
    rw [List.flatMap_append, List.flatMap_singleton]
    have hBefore := ih fun t ht => hConfined t (List.mem_append_left _ ht)
    exact hBefore.step hWired hRange hs
      (hConfined _ (List.mem_append_right _ (List.mem_singleton_self _)))

-- ---------------------------------------------------------------------------
-- Many producers
-- ---------------------------------------------------------------------------

/-- The handle is in a call, and not in the closure of a batch. -/
def MultiPc.busy : MultiPc E → Bool
  | .current _ | .check _ _ _ | .getAfter _ _ _ _ | .freeSlots _ _ _ _ | .compareExchange _ _ _
  | .update _ | .publish _ | .publishRange _ _ => true
  | _ => false

/-- What is held is in the claim of the handle that it borrows, or was abandoned. -/
structure MultiHeld (R : RingSize) (T : Topology Nat) (tr : List (Event E))
    (c : Client (SharedProducers E) E) : Prop where
  inv : MultiInv R T tr c.system
  claimed : ∀ h, ∀ t ∈ c.held h, (c.system.producer.handles h).InFlight t ∨ Abandoned tr t
  free : ∀ h, (c.system.producer.handles h).pc.busy = true → c.held h = []

/-- Only the closure of a batch yields references. -/
theorem MultiPc.yields_eq_some {pc : MultiPc E} {t : Int} (h : pc.yields = some t) :
    ∃ op iter k, pc = .updates op iter k ∧ iter.current ≤ iter.last ∧ t = iter.current := by
  cases pc with
  | updates op iter k => exact ⟨op, iter, k, rfl, MutBatchIter.yields_eq_some h⟩
  | _ => cases h

theorem multiSignatures_yields {s : MultiSystem E} {act : Act (MultiAct E)} {h : Nat} {t : Int}
    (hYields : multiSignatures.yields s act = some (h, t)) :
    (∃ handleAct, act = .producer (.handle h handleAct)) ∧
      (s.producer.handles h).pc.yields = some t := by
  have hPair : ∀ {h'}, (s.producer.handles h').pc.yields.map (fun t => (h', t)) = some (h, t) →
      h' = h ∧ (s.producer.handles h).pc.yields = some t := by
    intro h' hMap
    obtain ⟨t', hNext, hPair⟩ := Option.map_eq_some_iff.mp hMap
    obtain ⟨rfl, rfl⟩ := Prod.mk.inj hPair
    exact ⟨rfl, hNext⟩
  cases act with
  | consumer c act => cases hYields
  | producer act =>
    cases act with
    | handle h' act =>
      cases act with
      | tick =>
        obtain ⟨rfl, hNext⟩ := hPair hYields
        exact ⟨⟨_, rfl⟩, hNext⟩
      | unwind event =>
        obtain ⟨rfl, hNext⟩ := hPair hYields
        exact ⟨⟨_, rfl⟩, hNext⟩
      | call op => cases hYields
    | _ => cases hYields

section Handle

variable {h : Nat} {s : MultiSystem E} {act : HandleAct E} {memory : Memory E}
  {p' : MultiProducer E} {es tr : List (Event E)} {exited : Nat → Bool}

/-- A call keeps its handle to itself, but for the closure of a batch that goes on. -/
theorem MultiStep.busy
    (hStep : MultiStep R w.consumerBarrier w.consumerHandles exited h s.memory
      (s.producer.handles h) act memory p' es) (hBusy : p'.pc.busy = true) :
    ((s.producer.handles h).pc.busy = true ∨
      multiSignatures.uses (.producer (.handle h act) : Act (MultiAct E)) = some h ∨
      multiSignatures.returns s (.producer (.handle h act)) = some h) ∧
      ∀ op iter k, (s.producer.handles h).pc = .updates op iter k → iter.last < iter.current := by
  have hIn : (s.producer.handles h).pc.busy = true →
      ((s.producer.handles h).pc.busy = true ∨
        multiSignatures.uses (.producer (.handle h act) : Act (MultiAct E)) = some h ∨
        multiSignatures.returns s (.producer (.handle h act)) = some h) ∧
        ∀ op iter k, (s.producer.handles h).pc = .updates op iter k → iter.last < iter.current :=
    fun h => ⟨.inl h, fun op iter k hPc => by rw [hPc] at h; cases h⟩
  cases hStep with
  | call hPc => exact ⟨.inr (.inl rfl), fun op iter k hPc' => nomatch hPc.symm.trans hPc'⟩
  | @updatesEnd op iter k hPc hlt =>
    have hNone : iter.next = none := MutBatchIter.next_eq_none.mpr hlt
    refine ⟨.inr (.inr (by simp [multiSignatures, hPc, MultiPc.returns, hNone])), ?_⟩
    intro op' iter' k' hPc'
    cases hPc.symm.trans hPc'
    exact hlt
  | load hPc => exact hIn (by rw [hPc]; rfl)
  | slow hPc hlt => exact hIn (by rw [hPc]; rfl)
  | fast hPc hle => exact hIn (by rw [hPc]; rfl)
  | read hPc hg => exact hIn (by rw [hPc]; rfl)
  | answer hPc hg => exact hIn (by rw [hPc]; rfl)
  | refuse hPc => exact hIn (by rw [hPc]; rfl)
  | accept hPc => exact hIn (by rw [hPc]; rfl)
  | claim hPc => exact hIn (by rw [hPc]; rfl)
  | retry hPc => exact hIn (by rw [hPc]; rfl)
  | update hPc => exact hIn (by rw [hPc]; rfl)
  | mask hPc => exact hIn (by rw [hPc]; rfl)
  | commit hPc => exact hIn (by rw [hPc]; rfl)
  | _ => cases hBusy

/-- A claim that is being filled stays in hand, unless the closure unwinds or
returns. -/
theorem MultiStep.filling
    (hStep : MultiStep R w.consumerBarrier w.consumerHandles exited h s.memory
      (s.producer.handles h) act memory p' es)
    (hFree : (s.producer.handles h).pc.busy = false)
    (hReturns : multiSignatures.returns s (.producer (.handle h act)) ≠ some h) {t : Int}
    (ht : (s.producer.handles h).InFlight t) : p'.InFlight t ∨ Abandoned es t := by
  -- handles that are neither busy nor in a closure have nothing in hand
  unfold MultiProducer.InFlight at ht
  cases hStep with
  | @updatesEnd op iter k hPc hlt =>
    have hNone : iter.next = none := MutBatchIter.next_eq_none.mpr hlt
    exact (hReturns (by simp [multiSignatures, hPc, MultiPc.returns, hNone])).elim
  | updatesNext hPc _ =>
    rw [hPc] at ht
    exact .inl ht
  | unwindEnd hPc _ =>
    rw [hPc] at ht
    refine .inr (abandoned_unwound.mpr ?_)
    omega
  | unwindNext hPc _ =>
    rw [hPc] at ht
    refine .inr (abandoned_unwound.mpr ?_)
    omega
  | call hPc => simp [hPc] at ht
  | load hPc => simp [hPc] at ht
  | slow hPc => simp [hPc] at ht
  | fast hPc => simp [hPc] at ht
  | read hPc => simp [hPc] at ht
  | answer hPc => simp [hPc] at ht
  | overflow hPc => simp [hPc] at ht
  | refuse hPc => simp [hPc] at ht
  | accept hPc => simp [hPc] at ht
  | claim hPc => simp [hPc] at ht
  | retry hPc => simp [hPc] at ht
  | shutdownCurrent hPc => simp [hPc] at ht
  | shutdownStore hPc => simp [hPc] at ht
  | join hPc => simp [hPc] at ht
  | joined hPc => simp [hPc] at ht
  | update hPc => simp [hPc, MultiPc.busy] at hFree
  | unwindUpdate hPc => simp [hPc, MultiPc.busy] at hFree
  | publish hPc => simp [hPc, MultiPc.busy] at hFree
  | mask hPc => simp [hPc, MultiPc.busy] at hFree
  | commit hPc => simp [hPc, MultiPc.busy] at hFree
  | commitEnd hPc => simp [hPc, MultiPc.busy] at hFree
  | rangeEnd hPc => simp [hPc, MultiPc.busy] at hFree

end Handle

/-- The invariant does not depend on what the slots hold. -/
theorem MultiInv.updateSlot {s : MultiSystem E} {tr : List (Event E)} {index : Nat}
    {update : E → E} (hInv : MultiInv R T tr s) :
    MultiInv R T tr { s with memory := s.memory.updateSlot index update } where
  consistent := ⟨hInv.consistent.reachable, ⟨hInv.consistent.represents.cursor,
    hInv.consistent.represents.published⟩, hInv.consistent.consumers, hInv.consistent.claimed_le⟩
  ledger := hInv.ledger
  tiled := hInv.tiled
  clear := hInv.clear
  handle := hInv.handle
  absent := hInv.absent

namespace MultiHeld

variable {c : Client (SharedProducers E) E} {tr es : List (Event E)} {held : Nat → List Int}

theorem init (h64 : 64 ∣ R.size) (hWired : Wired T .multiProducer w) :
    MultiHeld R T [] (Client.init (MultiSystem.init R w factory)) where
  inv := .init h64 hWired
  claimed _ _ ht := (List.not_mem_nil ht).elim
  free _ _ := rfl

/-- What is held is not flipped. -/
theorem hidden (hI : MultiHeld R T tr c) {h : Nat} {t : Int} (ht : t ∈ c.held h) :
    t ∉ flips tr := by
  rcases hI.claimed h t ht with hClaim | hLost
  · have hOk := hI.inv.handle h
    have hFree : (c.system.producer.handles h).pc.busy ≠ true := fun hBusy => by
      rw [hI.free h hBusy] at ht
      cases ht
    have hIn := hClaim
    unfold MultiProducer.InFlight at hClaim
    unfold MultiProducer.Ok at hOk
    cases hPc : (c.system.producer.handles h).pc with
    | updates op iter k =>
      simp only [hPc] at hOk
      exact hOk.2.1 t hIn
    | _ => simp_all [MultiPc.busy]
  · exact (hI.inv.ledger.lost_fresh t hLost).1

theorem nonneg (hI : MultiHeld R T tr c) {h : Nat} {t : Int} (ht : t ∈ c.held h) : 0 ≤ t := by
  rcases hI.claimed h t ht with hClaim | hLost
  · exact (hI.inv.ledger.owed_bounds h t ⟨hClaim, hI.hidden ht⟩).1
  · exact (hI.inv.ledger.lost_bounds t hLost).1

/-- What is yielded is in the claim. -/
theorem yielded (hI : MultiHeld R T tr c) {act : Act (MultiAct E)} {h : Nat} {t : Int}
    (hYields : multiSignatures.yields c.system act = some (h, t)) :
    (c.system.producer.handles h).InFlight t ∧ (c.system.producer.handles h).pc.busy = false := by
  obtain ⟨op, iter, k, hPc, hLe, rfl⟩ :=
    MultiPc.yields_eq_some (multiSignatures_yields hYields).2
  have hOk := hI.inv.handle h
  unfold MultiProducer.Ok at hOk
  simp only [hPc] at hOk
  obtain ⟨-, -, hLast, hCurrent, -⟩ := hOk
  refine ⟨?_, by rw [hPc]; rfl⟩
  unfold MultiProducer.InFlight
  simp only [hPc]
  omega

/-- Fewer references, and handles that are idle where they changed. -/
theorem mono (hI : MultiHeld R T tr c) {system : MultiSystem E}
    (hInv : MultiInv R T (tr ++ es) system) (hHeld : ∀ h, held h ⊆ c.held h)
    (hHandles : ∀ h, system.producer.handles h = c.system.producer.handles h ∨
      (system.producer.handles h).pc.busy = false ∧
        ∀ t ∈ held h, ¬ (c.system.producer.handles h).InFlight t) :
    MultiHeld R T (tr ++ es) ⟨system, held⟩ := by
  refine ⟨hInv, ?_, ?_⟩
  · intro h t ht
    rcases hI.claimed h t (hHeld h ht) with hIn | hLost
    · rcases hHandles h with hSame | ⟨-, hNot⟩
      · exact .inl (hSame ▸ hIn)
      · exact (hNot t ht hIn).elim
    · exact .inr (abandoned_append.mpr (.inl hLost))
  · intro h hBusy
    rcases hHandles h with hSame | ⟨hFree, -⟩
    · have hNone := hI.free h (hSame ▸ hBusy)
      exact List.eq_nil_of_subset_nil (hNone ▸ hHeld h)
    · rw [hFree] at hBusy
      cases hBusy

/-- **A step of a handle.** -/
theorem handle (hI : MultiHeld R T tr c) {h : Nat} {act : HandleAct E} {memory : Memory E}
    {p' : MultiProducer E} {exited : Nat → Bool}
    (hStep : MultiStep R w.consumerBarrier w.consumerHandles exited h c.system.memory
      (c.system.producer.handles h) act memory p' es)
    (hInv : MultiInv R T (tr ++ es)
      { c.system with memory := memory, producer := c.system.producer.setHandle h p' })
    (hHeld : ∀ h', ∀ t ∈ held h',
      multiSignatures.uses (.producer (.handle h act) : Act (MultiAct E)) ≠ some h' ∧
          t ∈ c.held h' ∨
        multiSignatures.yields c.system (.producer (.handle h act)) = some (h', t))
    (hConfined : ∀ h', multiSignatures.returns c.system (.producer (.handle h act)) = some h' →
      c.held h' = []) :
    MultiHeld R T (tr ++ es)
      ⟨{ c.system with memory := memory, producer := c.system.producer.setHandle h p' }, held⟩ := by
  set act' : Act (MultiAct E) := .producer (.handle h act) with hAct
  -- the iterator of a batch yields to its own handle, and only when there is more
  have hYields : ∀ {h' t}, multiSignatures.yields c.system act' = some (h', t) →
      h' = h ∧ p'.pc.busy = false ∧ multiSignatures.returns c.system act' ≠ some h := by
    intro h' t hYields
    obtain ⟨⟨act'', hSame⟩, hNext⟩ := multiSignatures_yields hYields
    obtain ⟨op, iter, k, hPc, hLe, rfl⟩ := MultiPc.yields_eq_some hNext
    obtain ⟨rfl, rfl⟩ : h = h' ∧ act = act'' := by simpa [hAct] using hSame
    refine ⟨rfl, ?_, fun hReturns => ?_⟩
    · by_contra hBusy
      have := (hStep.busy (by simpa using hBusy)).2 op iter k hPc
      omega
    · obtain ⟨iter', hMore⟩ := Option.ne_none_iff_exists'.mp (fun hNone =>
        absurd (MutBatchIter.next_eq_none.mp hNone) (not_lt.mpr hLe))
      cases act with
      | tick => simp [hAct, multiSignatures, hPc, MultiPc.returns, hMore] at hReturns
      | call op => cases hReturns
      | unwind event => cases hReturns
  -- so what is held afterwards was in hand or abandoned before
  have hBefore : ∀ h', ∀ t ∈ held h',
      (c.system.producer.handles h').InFlight t ∨ Abandoned tr t := by
    intro h' t ht
    rcases hHeld h' t ht with ⟨-, hOld⟩ | hNew
    · exact hI.claimed h' t hOld
    · exact .inl (hI.yielded hNew).1
  refine ⟨hInv, ?_, ?_⟩
  · intro h' t ht
    rcases hBefore h' t ht with hIn | hLost
    · show ((c.system.producer.setHandle h p').handles h').InFlight t ∨ _
      rw [SharedProducers.setHandle_handles, abandoned_append]
      split
      · rename_i hEq
        subst hEq
        have hFill : (c.system.producer.handles h').pc.busy = false ∧
            multiSignatures.returns c.system act' ≠ some h' := by
          rcases hHeld h' t ht with ⟨-, hOld⟩ | hNew
          · refine ⟨?_, fun hReturns => ?_⟩
            · by_contra hBusy
              rw [hI.free h' (by simpa using hBusy)] at hOld
              cases hOld
            · rw [hConfined h' hReturns] at hOld
              cases hOld
          · exact ⟨(hI.yielded hNew).2, (hYields hNew).2.2⟩
        exact (hStep.filling hFill.1 hFill.2 hIn).imp_right .inr
      · exact .inl hIn
    · exact .inr (abandoned_append.mpr (.inl hLost))
  · intro h' hBusy
    rw [List.eq_nil_iff_forall_not_mem]
    intro t ht
    change ((c.system.producer.setHandle h p').handles h').pc.busy = true at hBusy
    rw [SharedProducers.setHandle_handles] at hBusy
    split at hBusy
    · rename_i hEq
      subst hEq
      rcases hHeld h' t ht with ⟨hUnused, hOld⟩ | hNew
      · rcases (hStep.busy hBusy).1 with hWas | hUses | hReturns
        · rw [hI.free h' hWas] at hOld
          cases hOld
        · exact hUnused hUses
        · rw [hConfined h' hReturns] at hOld
          cases hOld
      · rw [(hYields hNew).2.1] at hBusy
        cases hBusy
    · rename_i hne
      rcases hHeld h' t ht with ⟨-, hOld⟩ | hNew
      · rw [hI.free h' hBusy] at hOld
        cases hOld
      · exact hne (hYields hNew).1

/-- **Every step of the client** keeps what is held out of what is flipped. -/
theorem step (hI : MultiHeld R T tr c) (hWired : Wired T .multiProducer w)
    {act : ClientAct (MultiAct E) E} {c' : Client (SharedProducers E) E}
    (hRange : act.ok MultiAct.InRange)
    (hs : clientStep R multiSignatures (MultiSystem.step R w) c act = some (c', es))
    (hConfined : c.Confined multiSignatures act) : MultiHeld R T (tr ++ es) c' := by
  cases clientStep_cases hs with
  | @step act keep system held es hs hHeld =>
    have hInv := hI.inv.step hWired hRange hs
    -- where nothing is yielded, what is held was held before
    have hOld : (∀ h t, multiSignatures.yields c.system act ≠ some (h, t)) →
        ∀ h, held h ⊆ c.held h := by
      intro hNone h t ht
      rcases hHeld h t ht with ⟨-, hOld⟩ | hNew
      · exact hOld
      · exact (hNone h t hNew).elim
    cases multiStep_cases hs with
    | handle hStep => exact hI.handle hStep hInv hHeld hConfined
    | consumer hSpec hStep =>
      exact hI.mono hInv (hOld fun _ _ => by simp [multiSignatures]) fun h => .inl rfl
    | @clone h hPc hLocked =>
      refine hI.mono hInv (hOld fun _ _ => by simp [multiSignatures]) fun h' => ?_
      -- the name of the new handle was not used before
      rcases eq_or_ne h' c.system.producer.nextHandle with rfl | hne
      · refine .inr ⟨?_, fun t _ ht => ?_⟩
        · simp [SharedProducers.setHandle, MultiProducer.cloned, MultiPc.busy]
        · rw [hI.inv.absent _ (le_refl _)] at ht
          exact ht
      · exact .inl (Function.update_of_ne hne ..)
    | @dropLast h hPc hCounter =>
      refine hI.mono hInv (hOld fun _ _ => by simp [multiSignatures]) fun h' => ?_
      rcases eq_or_ne h' h with rfl | hne
      · refine .inr ⟨by simp [SharedProducers.setHandle, MultiPc.busy], fun t _ ht => ?_⟩
        simp [MultiProducer.InFlight, hPc] at ht
      · exact .inl (Function.update_of_ne hne ..)
    | @drop h hPc hCounter =>
      refine hI.mono hInv (hOld fun _ _ => by simp [multiSignatures]) fun h' => ?_
      rcases eq_or_ne h' h with rfl | hne
      · refine .inr ⟨by simp [SharedProducers.setHandle, MultiPc.busy], fun t _ ht => ?_⟩
        simp [MultiProducer.InFlight, hPc] at ht
      · exact .inl (Function.update_of_ne hne ..)
  | write =>
    rw [List.append_nil]
    exact ⟨hI.inv.updateSlot, hI.claimed, hI.free⟩
  | release hHeld =>
    refine hI.mono ?_ hHeld fun h => .inl rfl
    rw [List.append_nil]
    exact hI.inv

end MultiHeld

theorem MultiClientPath.held {R : MultiRingSize} (hWired : Wired T .multiProducer w)
    {ts : List (Transition (Client (SharedProducers E) E) (ClientAct (MultiAct E) E) (Event E))}
    {c : Client (SharedProducers E) E} (h : MultiClientPath R w factory ts c)
    (hConfined : ∀ t ∈ ts, t.source.Confined multiSignatures t.act) :
    MultiHeld R.toRingSize T (ts.flatMap Transition.events) c := by
  induction h with
  | nil => exact .init R.dvd_size hWired
  | snoc _ hRange hs ih =>
    rw [List.flatMap_append, List.flatMap_singleton]
    have hBefore := ih fun t ht => hConfined t (List.mem_append_left _ ht)
    exact hBefore.step hWired hRange hs
      (hConfined _ (List.mem_append_right _ (List.mem_singleton_self _)))

end Calvera
