import Calvera.Refinement.Alone
import Calvera.Results.SlotExclusion

/-!
# Results — claiming is justified at one instant

`next_sequences` loads the cursor first and the consumer cursors later, one by
one, so what it compares never held at one moment. Its answers are right all the
same. A claim succeeds only if the cursor is still what was loaded, and bounds
on consumer cursors stay true. A claim is refused only if too few slots were
free when the cursor was loaded: the consumers can only have moved on since.

* `claiming_linearizable` — each answer of `next_sequences` is justified at one
  instant during the call, a refusal changes nothing, and a call that runs alone
  is answered by the number of free slots.
-/

namespace Calvera

open Calvera.Lib Calvera.Protocol

variable {E : Type} {R : RingSize} {T : Topology Nat} {w : Wiring}

-- ---------------------------------------------------------------------------
-- Lower bounds of a read in progress
-- ---------------------------------------------------------------------------

/-- The call reads consumer cursors, and what it has read so far is at least `b`. -/
def GetAfter.AtLeast (T : Topology Nat) (b : Int) : GetAfter → Prop
  | .loadConsumer cursor => cursor ∈ T.members
  | .fold minSequence rest => b ≤ minSequence ∧ ∀ c ∈ rest, c ∈ T.members
  | _ => False

theorem Covers.atLeast {producerBarrier barrier : Barrier} {j : Nat} {b : Int}
    (h : Covers T producerBarrier (j + 1) barrier) (hb : b ≤ i64Max) (q : Int) :
    (barrier.getAfter q).AtLeast T b := by
  cases h with
  | @uni j cursor hOne => exact ((hOne cursor).mp rfl).1
  | multi hAll => exact ⟨hb, fun c hc => ((hAll c).mp hc).1⟩

/-- Reading on keeps the bound, and the answer respects it. -/
theorem GetAfter.AtLeast.step {b : Int} {g : GetAfter} (h : g.AtLeast T b) {m : Memory E}
    (hb : ∀ c ∈ T.members, b ≤ m.consumerCursors c) :
    (∀ g', g.step R m = .inl g' → g'.AtLeast T b) ∧ ∀ v, g.step R m = .inr v → b ≤ v := by
  cases g with
  | loadConsumer cursor =>
    refine ⟨fun g' hg => (by simp [GetAfter.step] at hg), fun v hg => ?_⟩
    cases hg
    exact hb cursor h
  | fold minSequence rest =>
    obtain ⟨hMin, hRest⟩ := h
    cases rest with
    | nil =>
      refine ⟨fun g' hg => (by simp [GetAfter.step] at hg), fun v hg => ?_⟩
      cases hg
      exact hMin
    | cons cursor rest =>
      refine ⟨fun g' hg => ?_, fun v hg => (by simp [GetAfter.step] at hg)⟩
      cases hg
      exact ⟨Int.le_min.mpr ⟨hb cursor (hRest cursor (List.mem_cons_self ..)), hMin⟩,
        fun c hc => hRest c (List.mem_cons_of_mem _ hc)⟩
  | loadProducer => exact h.elim
  | scanStart prev => exact h.elim
  | scan v => exact h.elim

-- ---------------------------------------------------------------------------
-- A call in progress
-- ---------------------------------------------------------------------------

/-- The event ends a call of `next_sequences` by handle `h`. -/
def Event.EndsClaim (h : Nat) : Event E → Prop
  | .claimed handle _ _ _ | .refused handle _ | .overflowed handle => handle = h
  | _ => False

/-- The transitions of a run of the multi-producer system. -/
abbrev MultiPath (R : RingSize) (w : Wiring) (s : MultiSystem E) :
    List (Transition (MultiSystem E) (Act (MultiAct E)) (Event E)) → MultiSystem E → Prop :=
  Path (MultiSystem.step R w) MultiAct.InRange s

/-- At some instant of the call the cursor was `current` and the slowest
consumer at `b`; since then no consumer is below `b`. -/
structure Instant (w : Wiring) (T : Topology Nat)
    (ts : List (Transition (MultiSystem E) (Act (MultiAct E)) (Event E))) (m : Memory E)
    (current b : Int) : Prop where
  loaded : ∃ t ∈ ts, t.source.memory.cursor = current ∧ minCursor w t.source.memory = b
  le : ∀ c ∈ T.members, b ≤ m.consumerCursors c

/-- Handle `h` is inside `next_sequences(n)`, and what it knows goes back to one instant. -/
def MultiProducer.Claiming (w : Wiring) (T : Topology Nat)
    (ts : List (Transition (MultiSystem E) (Act (MultiAct E)) (Event E))) (m : Memory E) (op : Op E)
    (p : MultiProducer E) : Prop :=
  match p.pc with
  | .current op' => op' = op
  | .check op' current _ => op' = op ∧ ∃ b, Instant w T ts m current b
  | .getAfter op' current _ g => op' = op ∧ ∃ b, Instant w T ts m current b ∧ g.AtLeast T b
  | .freeSlots op' current _ rear => op' = op ∧ ∃ b, Instant w T ts m current b ∧ b ≤ rear
  | .compareExchange op' _ _ => op' = op
  | _ => False

theorem Instant.later {ts : List (Transition (MultiSystem E) (Act (MultiAct E)) (Event E))}
    {m m' : Memory E} {current b : Int} (h : Instant w T ts m current b)
    (hMono : ∀ c ∈ T.members, m.consumerCursors c ≤ m'.consumerCursors c)
    (t : Transition (MultiSystem E) (Act (MultiAct E)) (Event E)) :
    Instant w T (ts ++ [t]) m' current b := by
  obtain ⟨⟨t', hMem, hLoaded⟩, hLe⟩ := h
  exact ⟨⟨t', List.mem_append_left _ hMem, hLoaded⟩, fun c hc => (hLe c hc).trans (hMono c hc)⟩

/-- What others do keeps a call in order. -/
theorem MultiProducer.Claiming.later
    {ts : List (Transition (MultiSystem E) (Act (MultiAct E)) (Event E))} {m m' : Memory E}
    {op : Op E} {p : MultiProducer E} (h : p.Claiming w T ts m op)
    (hMono : ∀ c ∈ T.members, m.consumerCursors c ≤ m'.consumerCursors c)
    (t : Transition (MultiSystem E) (Act (MultiAct E)) (Event E)) :
    p.Claiming w T (ts ++ [t]) m' op := by
  unfold Claiming at h ⊢
  split <;> rename_i hPc <;> simp only [hPc] at h
  · exact h
  · obtain ⟨hOp, b, hInstant⟩ := h
    exact ⟨hOp, b, hInstant.later hMono t⟩
  · obtain ⟨hOp, b, hInstant, hAtLeast⟩ := h
    exact ⟨hOp, b, hInstant.later hMono t, hAtLeast⟩
  · obtain ⟨hOp, b, hInstant, hLe⟩ := h
    exact ⟨hOp, b, hInstant.later hMono t, hLe⟩
  · exact h

/-- **A step of the handle that does not end its call** keeps it in order and
leaves the memory as it is. -/
theorem MultiInv.claiming_step {tr : List (Event E)} {s : MultiSystem E} (hInv : MultiInv R T tr s)
    (hWired : Wired T .multiProducer w) {h : Nat} {op : Op E}
    {ts : List (Transition (MultiSystem E) (Act (MultiAct E)) (Event E))}
    (hClaiming : (s.producer.handles h).Claiming w T ts s.memory op)
    {exited : Nat → Bool} {act : HandleAct E} {memory : Memory E} {p' : MultiProducer E}
    {es : List (Event E)}
    (hStep : MultiStep R w.consumerBarrier w.consumerHandles exited h s.memory
      (s.producer.handles h) act memory p' es)
    (hOpen : ∀ e ∈ es, ¬ e.EndsClaim h)
    (t : Transition (MultiSystem E) (Act (MultiAct E)) (Event E)) (ht : t.source = s) :
    memory = s.memory ∧ es = [] ∧ p'.Claiming w T (ts ++ [t]) s.memory op := by
  -- loading the cursor is such an instant
  have hLoad : ∀ {op' current p' es}, (s.producer.handles h).loop h op' s.memory.cursor = (p', es) →
      op' = op → current = s.memory.cursor → (∀ e ∈ es, ¬ e.EndsClaim h) →
      es = [] ∧ p'.Claiming w T (ts ++ [t]) s.memory op := by
    intro op' current p' es hLoop hOp hCurrent hOpen
    rcases MultiProducer.loop_cases hLoop with ⟨rfl, rfl⟩ | ⟨rfl, rfl, -⟩
    · exact (hOpen _ (List.mem_singleton_self _) rfl).elim
    · refine ⟨rfl, hOp, minCursor w s.memory, ⟨t, ?_, ?_⟩, ?_⟩
      · exact List.mem_append_right _ (List.mem_singleton_self t)
      · exact ht ▸ ⟨rfl, rfl⟩
      · exact (le_minCursor_iff hWired).mp (le_refl _)
  have hMono : ∀ c ∈ T.members, s.memory.consumerCursors c ≤ s.memory.consumerCursors c :=
    fun _ _ => le_refl _
  unfold MultiProducer.Claiming at hClaiming
  cases hStep with
  | load hPc hLoop =>
    simp only [hPc] at hClaiming
    exact ⟨rfl, hLoad hLoop hClaiming rfl hOpen⟩
  | retry hPc _ hLoop =>
    simp only [hPc] at hClaiming
    exact ⟨rfl, hLoad hLoop hClaiming rfl hOpen⟩
  | slow hPc _ =>
    simp only [hPc] at hClaiming
    obtain ⟨hOp, b, hInstant⟩ := hClaiming
    have hMax : b ≤ i64Max := by
      obtain ⟨c, hMem⟩ := T.nonempty
      have : s.memory.consumerCursors c ≤ s.memory.cursor :=
        hInv.consistent.inv.cursor_le_claimed hMem
      have := hInv.consistent.claimed_le
      have := hInstant.le c hMem
      omega
    exact ⟨rfl, rfl, hOp, b, hInstant.later hMono t, hWired.consumerBarrier.atLeast hMax _⟩
  | fast hPc _ =>
    simp only [hPc] at hClaiming
    exact ⟨rfl, rfl, hClaiming.1⟩
  | read hPc hg =>
    simp only [hPc] at hClaiming
    obtain ⟨hOp, b, hInstant, hAtLeast⟩ := hClaiming
    exact ⟨rfl, rfl, hOp, b, hInstant.later hMono t, (hAtLeast.step hInstant.le).1 _ hg⟩
  | answer hPc hg =>
    simp only [hPc] at hClaiming
    obtain ⟨hOp, b, hInstant, hAtLeast⟩ := hClaiming
    exact ⟨rfl, rfl, hOp, b, hInstant.later hMono t, (hAtLeast.step hInstant.le).2 _ hg⟩
  | accept hPc _ _ _ =>
    simp only [hPc] at hClaiming
    exact ⟨rfl, rfl, hClaiming.1⟩
  | overflow => exact (hOpen _ (List.mem_singleton_self _) rfl).elim
  | refuse _ _ _ hRefuse => exact (hOpen _ (MultiProducer.refuse_mem hRefuse) rfl).elim
  | claim _ _ hClaim =>
    obtain ⟨-, rfl⟩ := Prod.mk.inj hClaim
    exact (hOpen _ (List.mem_singleton_self _) rfl).elim
  | _ => simp_all

/-- **A call in progress stays in order** whatever moves. -/
theorem MultiInv.claiming_move {tr es : List (Event E)} {s s' : MultiSystem E}
    {act : Act (MultiAct E)} (hInv : MultiInv R T tr s) (hWired : Wired T .multiProducer w) {h : Nat}
    {op : Op E} {ts : List (Transition (MultiSystem E) (Act (MultiAct E)) (Event E))}
    (hClaiming : (s.producer.handles h).Claiming w T ts s.memory op)
    (hStep : MultiSystemStep R w s act s' es) (hOpen : ∀ e ∈ es, ¬ e.EndsClaim h) :
    (s'.producer.handles h).Claiming w T (ts ++ [⟨s, act, es, s'⟩]) s'.memory op := by
  have hMono := hInv.consistent.cursor_mono hWired hStep.move
  have hPc : (s.producer.handles h).pc ≠ .idle ∧ (s.producer.handles h).pc ≠ .absent := by
    constructor <;> intro hPc <;> simp [MultiProducer.Claiming, hPc] at hClaiming
  -- a step that leaves the handle alone
  have hOther : ∀ h' p', h' ≠ h → s'.producer.handles h = (s.producer.setHandle h' p').handles h →
      (s'.producer.handles h).Claiming w T (ts ++ [⟨s, act, es, s'⟩]) s'.memory op := by
    intro h' p' hne hSame
    rw [hSame, SharedProducers.setHandle_handles, if_neg (Ne.symm hne)]
    exact hClaiming.later hMono _
  cases hStep with
  | consumer hSpec hStep => exact hClaiming.later hMono _
  | @handle h' act memory p' es hStep =>
    rcases eq_or_ne h' h with rfl | hne
    · obtain ⟨hMemory, -, hOk⟩ := hInv.claiming_step hWired hClaiming hStep hOpen ⟨s, _, _, _⟩ rfl
      rw [SharedProducers.setHandle_handles, if_pos rfl, hMemory]
      exact hOk
    · exact hOther h' p' hne rfl
  | @clone h' _ _ =>
    refine hOther s.producer.nextHandle .cloned (fun hEq => hPc.2 ?_) rfl
    rw [← hEq, hInv.absent _ (le_refl _)]
    rfl
  | @dropLast h' hIdle _ => exact hOther h' _ (fun hEq => hPc.1 (hEq ▸ hIdle)) rfl
  | @drop h' hIdle _ => exact hOther h' _ (fun hEq => hPc.1 (hEq ▸ hIdle)) rfl

/-- Along a call, the handle's own steps change nothing and show nothing. -/
theorem MultiPath.claiming {R : MultiRingSize} {factory : Nat → E}
    (hWired : Wired T .multiProducer w) {tr : List (Event E)} {s s₁ : MultiSystem E}
    (hRun : MultiRun R w factory tr s) {h : Nat} {op : Op E}
    (hPc : (s.producer.handles h).pc = .current op)
    {ts : List (Transition (MultiSystem E) (Act (MultiAct E)) (Event E))}
    (hPath : MultiPath R.toRingSize w s ts s₁)
    (hDuring : ∀ t ∈ ts, ∀ e ∈ t.events, ¬ e.EndsClaim h) :
    (s₁.producer.handles h).Claiming w T ts s₁.memory op ∧
      ∀ t ∈ ts, ∀ act, t.act = .producer (.handle h act) →
        t.target.memory = t.source.memory ∧ t.events = [] := by
  induction hPath with
  | nil => exact ⟨by simp [MultiProducer.Claiming, hPc], by simp⟩
  | @snoc ts s₁ s₂ act es hPath hRange hs ih =>
    obtain ⟨hClaiming, hOwn⟩ := ih fun t hMem => hDuring t (List.mem_append_left _ hMem)
    have hInv := MultiRun.inv hWired (hRun.trans hPath.run)
    have hStep := multiStep_cases hs
    have hOpen := hDuring ⟨s₁, act, es, s₂⟩ (List.mem_append_right _ (List.mem_singleton_self _))
    refine ⟨hInv.claiming_move hWired hClaiming hStep hOpen, fun t hMem act' hAct => ?_⟩
    rcases List.mem_append.mp hMem with hOld | hNew
    · exact hOwn t hOld act' hAct
    · obtain rfl := List.mem_singleton.mp hNew
      cases hStep <;> cases hAct
      rename_i hStep
      obtain ⟨hMemory, hEvents, -⟩ := hInv.claiming_step hWired hClaiming hStep hOpen
        ⟨s₁, .producer (.handle h act'), es, s₁⟩ rfl
      exact ⟨hMemory, hEvents⟩

-- ---------------------------------------------------------------------------
-- What the answers mean
-- ---------------------------------------------------------------------------

/-- A refusal comes from comparing the free slots with `n`, and changes nothing. -/
theorem MultiStep.refused {barrier : Barrier} {joins : List Nat} {exited : Nat → Bool} {h h' : Nat}
    {m m' : Memory E} {p p' : MultiProducer E} {act : HandleAct E} {es : List (Event E)}
    (hStep : MultiStep R barrier joins exited h m p act m' p' es) {missing : Nat}
    (hMem : .refused h' missing ∈ es) :
    h' = h ∧ m' = m ∧ (∀ q, .updated h q ∉ es) ∧ ∃ op current nNext rear free,
      p.pc = .freeSlots op current nNext rear ∧ R.freeSlots current rear = some free ∧
        free < op.nI64 ∧ missing = asUnsigned (op.nI64 - free) := by
  cases hStep with
  | refuse hPc hFree hlt hRefuse =>
    generalize hMissing : asUnsigned _ = k at hRefuse
    unfold MultiProducer.refuse at hRefuse
    split at hRefuse <;> obtain ⟨-, rfl⟩ := Prod.mk.inj hRefuse <;> simp at hMem <;>
      obtain ⟨rfl, rfl⟩ := hMem <;>
      exact ⟨rfl, rfl, by simp, _, _, _, _, _, hPc, hFree, hlt, hMissing.symm⟩
  | load _ hLoop => rcases MultiProducer.loop_cases hLoop with ⟨-, rfl⟩ | ⟨-, rfl, -⟩ <;> simp at hMem
  | retry _ _ hLoop =>
    rcases MultiProducer.loop_cases hLoop with ⟨-, rfl⟩ | ⟨-, rfl, -⟩ <;> simp at hMem
  | claim _ _ hClaim =>
    obtain ⟨-, rfl⟩ := Prod.mk.inj hClaim
    simp at hMem
  | _ => simp at hMem

/-- A claim comes from a successful compare-exchange. -/
theorem MultiStep.claimed {barrier : Barrier} {joins : List Nat} {exited : Nat → Bool} {h h' : Nat}
    {m m' : Memory E} {p p' : MultiProducer E} {act : HandleAct E} {es : List (Event E)}
    (hStep : MultiStep R barrier joins exited h m p act m' p' es) {lower upper : Int}
    {update : Nat → E → E} (hMem : .claimed h' lower upper update ∈ es) :
    h' = h ∧ m' = m.setCursor upper ∧ lower = m.cursor + 1 ∧
      ∃ op, p.pc = .compareExchange op m.cursor upper ∧ update = op.update := by
  cases hStep with
  | claim hPc hEq hClaim =>
    obtain ⟨-, rfl⟩ := Prod.mk.inj hClaim
    subst hEq
    obtain ⟨rfl, rfl, rfl, rfl⟩ := by simpa using hMem
    exact ⟨rfl, rfl, rfl, _, hPc, rfl⟩
  | load _ hLoop => rcases MultiProducer.loop_cases hLoop with ⟨-, rfl⟩ | ⟨-, rfl, -⟩ <;> simp at hMem
  | retry _ _ hLoop =>
    rcases MultiProducer.loop_cases hLoop with ⟨-, rfl⟩ | ⟨-, rfl, -⟩ <;> simp at hMem
  | refuse _ _ _ hRefuse =>
    unfold MultiProducer.refuse at hRefuse
    split at hRefuse <;> obtain ⟨-, rfl⟩ := Prod.mk.inj hRefuse <;> simp at hMem
  | _ => simp at hMem

/-- **A claim is justified when the compare-exchange succeeds.** -/
theorem MultiInv.claimed {tr es : List (Event E)} {s s' : MultiSystem E} {act : Act (MultiAct E)}
    (hInv : MultiInv R T tr s) (hWired : Wired T .multiProducer w)
    (hStep : MultiSystemStep R w s act s' es) {h : Nat} {lower upper : Int} {update : Nat → E → E}
    (hMem : .claimed h lower upper update ∈ es) :
    ∃ op, (s.producer.handles h).pc = .compareExchange op s.memory.cursor upper ∧
      s.memory.cursor = upper - op.n ∧ lower = s.memory.cursor + 1 ∧
      op.n ≤ freeSlots R w s.memory := by
  cases hStep with
  | consumer hSpec hStep => exact (hStep.ofConsumer _ hMem).elim
  | handle hStep =>
    obtain ⟨rfl, -, rfl, op, hPc, -⟩ := hStep.claimed hMem
    have hOk := hInv.handle h
    simp only [MultiProducer.Ok, hPc] at hOk
    obtain ⟨hTarget, hClear⟩ := hOk
    have hN := hTarget.inRange.nI64
    have hNext := hTarget.next
    have := hInv.clear_le hWired h
    exact ⟨op, hPc, by omega, rfl, by omega⟩
  | clone => simp at hMem
  | dropLast => simp at hMem
  | drop => simp at hMem

/-- **A refusal is justified at the instant its call goes back to.** -/
theorem MultiPath.refused {R : MultiRingSize} {factory : Nat → E}
    (hWired : Wired T .multiProducer w) {tr es : List (Event E)} {s s₁ s₂ : MultiSystem E}
    (hRun : MultiRun R w factory tr s) {h : Nat} {op : Op E}
    (hPc : (s.producer.handles h).pc = .current op)
    {ts : List (Transition (MultiSystem E) (Act (MultiAct E)) (Event E))}
    (hPath : MultiPath R.toRingSize w s ts s₁)
    (hDuring : ∀ t ∈ ts, ∀ e ∈ t.events, ¬ e.EndsClaim h) {act : Act (MultiAct E)}
    (hStep : MultiSystemStep R.toRingSize w s₁ act s₂ es) {missing : Nat}
    (hMem : .refused h missing ∈ es) :
    (1 ≤ missing ∧ ∃ t ∈ ts, freeSlots R.toRingSize w t.source.memory < op.n ∧
      missing ≤ op.n - freeSlots R.toRingSize w t.source.memory) ∧
    s₂.memory = s₁.memory ∧ ∀ q, .updated h q ∉ es := by
  have hInv := MultiRun.inv hWired (hRun.trans hPath.run)
  have hClaiming := (MultiPath.claiming hWired hRun hPc hPath hDuring).1
  cases hStep with
  | consumer hSpec hStep => exact (hStep.ofConsumer _ hMem).elim
  | handle hStep =>
    obtain ⟨rfl, rfl, hUpdated, op', current, nNext, rear, free, hPc', hFree, hlt, hMissing⟩ :=
      hStep.refused hMem
    have hOk := hInv.handle h
    simp only [MultiProducer.Ok, hPc'] at hOk
    simp only [MultiProducer.Claiming, hPc'] at hClaiming
    obtain ⟨rfl, b, ⟨⟨t, htMem, rfl, rfl⟩, -⟩, hRear⟩ := hClaiming
    have hN := hOk.1.inRange.nI64
    have hRange := hOk.1.inRange
    -- the loaded cursor was within one round of the slowest consumer
    obtain ⟨-, -, tr', hSource⟩ := hPath.source htMem
    have hBounds := (MultiRun.inv hWired (hRun.trans hSource)).consistent.minCursor_bounds hWired
    have hCode := R.freeSlots_eq_some hFree
    have hFreeNonneg : 0 ≤ free := by omega
    have hUnsigned : asUnsigned (op'.nI64 - free) = (op'.nI64 - free).toNat :=
      asUnsigned_of_nonneg (by omega) (by simp only [i64Max, Op.InRange] at hRange ⊢; omega)
    rw [hUnsigned] at hMissing
    refine ⟨⟨by omega, t, htMem, ?_, ?_⟩, rfl, hUpdated⟩ <;> unfold freeSlots <;> omega
  | clone => simp at hMem
  | dropLast => simp at hMem
  | drop => simp at hMem

/-- **Claiming is justified at one instant.** In every reachable state of a
multi-producer disruptor: when `next_sequences(n)` returns `Ok(u)`, the cursor
was `u - n` at the compare-exchange, and at least `n` slots were free. When it
returns `Err(EMissingFreeSlots(k))`, there was an instant during the call at
which fewer than `n` slots were free and at least `k ≥ 1` were missing; the call
changed no shared memory and did not run the closure. Run alone from any state,
for any handle between calls, it returns `Ok` if `n` slots are free and the
number of missing slots otherwise. -/
theorem claiming_linearizable (R : MultiRingSize) (chain : BuildChain) (w : Wiring)
    (hBuild : chain.build buildMultiProducerUnchecked = some w) (factory : Nat → E)
    (tr : List (Event E)) (s : MultiSystem E) (hRun : MultiRun R w factory tr s) (h : Nat) :
    (∀ act s' es lower upper update, MultiSystem.step R.toRingSize w s act = some (s', es) →
      .claimed h lower upper update ∈ es →
      ∃ op, (s.producer.handles h).pc = .compareExchange op s.memory.cursor upper ∧
        s.memory.cursor = upper - op.n ∧ lower = s.memory.cursor + 1 ∧
        op.n ≤ freeSlots R.toRingSize w s.memory) ∧
    (∀ op ts s₁ act s₂ es (missing : Nat), (s.producer.handles h).pc = .current op →
      MultiPath R.toRingSize w s ts s₁ → (∀ t ∈ ts, ∀ e ∈ t.events, ¬ e.EndsClaim h) →
      MultiSystem.step R.toRingSize w s₁ act = some (s₂, es) → .refused h missing ∈ es →
      (1 ≤ missing ∧ ∃ t ∈ ts, freeSlots R.toRingSize w t.source.memory < op.n ∧
        missing ≤ op.n - freeSlots R.toRingSize w t.source.memory) ∧
      (∀ t ∈ ts, ∀ act, t.act = .producer (.handle h act) →
        t.target.memory = t.source.memory ∧ t.events = []) ∧
      s₂.memory = s₁.memory ∧ ∀ q, .updated h q ∉ es) ∧
    (∀ op, (s.producer.handles h).pc = .idle → op.InRange → s.memory.cursor + op.n ≤ i64Max →
      MultiSystem.step R.toRingSize w s (.producer (.handle h (.call op))) =
        some (s.atPc h (.current op), []) ∧
      (op.n ≤ freeSlots R.toRingSize w s.memory →
        s.memory.cursor + freeSlots R.toRingSize w s.memory ≤ i64Max →
        ∃ s', Drives (MultiSystem.alone R.toRingSize w h) emitted (s.atPc h (.current op))
          [.claimed h (s.memory.cursor + 1) (s.memory.cursor + op.n) op.update] s') ∧
      (freeSlots R.toRingSize w s.memory < op.n →
        ∃ (missing : Nat) (es : List (Event E)) (s' : MultiSystem E),
          Drives (MultiSystem.alone R.toRingSize w h) emitted (s.atPc h (.current op))
            (.refused h missing :: es) s' ∧
          (missing : Int) = op.n - freeSlots R.toRingSize w s.memory ∧
          s'.memory = s.memory ∧ s'.consumers = s.consumers)) := by
  have hWired := BuildChain.wired_multi hBuild
  have hInv := MultiRun.inv hWired hRun
  refine ⟨?_, ?_, ?_⟩
  · intro act s' es lower upper update hs hMem
    exact hInv.claimed hWired (multiStep_cases hs) hMem
  · intro op ts s₁ act s₂ es missing hPc hPath hDuring hs hMem
    obtain ⟨hMissing, hLast⟩ :=
      MultiPath.refused hWired hRun hPc hPath hDuring (multiStep_cases hs) hMem
    exact ⟨hMissing, (MultiPath.claiming hWired hRun hPc hPath hDuring).2, hLast⟩
  · intro op hIdle hRange hMax
    have hN := hRange.nI64
    have hGe := hInv.cursor_ge
    have hBounds := hInv.consistent.minCursor_bounds hWired
    have hIn : InI64 (s.memory.cursor + op.nI64) := by
      simp only [InI64, i64Min, i64Max] at hMax ⊢
      omega
    refine ⟨?_, ?_, ?_⟩
    · simp [MultiSystem.step, multiProducerStep, hIdle, MultiSystem.atPc]
    · intro hle hFit
      rw [← hN] at hle ⊢
      rcases hInv.alone_claimed hWired hIn hle with hClaimed | ⟨hOver, -⟩
      · exact hClaimed
      · omega
    · intro hlt
      rw [← hN] at hlt
      refine ⟨_, _, _, hInv.alone_refused hWired hIn rfl hlt, ?_, rfl, rfl⟩
      have hUnsigned : asUnsigned (op.nI64 - freeSlots R.toRingSize w s.memory) =
          (op.nI64 - freeSlots R.toRingSize w s.memory).toNat := by
        refine asUnsigned_of_nonneg (by omega) ?_
        unfold freeSlots
        simp only [i64Max, Op.InRange] at hRange ⊢
        omega
      omega

/-- The handle is between calls. -/
def MultiPc.isIdle : MultiPc E → Bool
  | .idle => true
  | _ => false

theorem MultiPc.eq_idle {pc : MultiPc E} (h : pc.isIdle = true) : pc = .idle := by
  cases pc <;> first | rfl | cases h

/-- A clone, whose cached bound is `0`, asks for 65 of 64 slots and misses one. -/
theorem claiming_linearizable_clone : ∃ tr s s',
    MultiRun ring64 (pollerThenHandlerWiring .multiProducer) (fun _ => 0) tr s ∧
    (s.producer.handles 1).sequenceClearOfConsumers = 0 ∧
    ∃ missing es, Drives (MultiSystem.alone ring64.toRingSize
        (pollerThenHandlerWiring .multiProducer) 1) emitted
      (s.atPc 1 (.current (.tryBatchPublish 65 fun _ e => e))) (.refused 1 missing :: es) s' ∧
      missing = 1 := by
  have hExec : (execMulti [.producer (.clone 0)]).any (fun x =>
      (x.1.producer.handles 1).sequenceClearOfConsumers = 0 ∧
        (x.1.producer.handles 1).pc.isIdle ∧ x.1.memory.cursor = -1 ∧
        freeSlots ring64.toRingSize (pollerThenHandlerWiring .multiProducer) x.1.memory = 64) =
          true := by
    decide
  obtain ⟨tr, s, hRun, hState⟩ := Run.of_schedule
    (by simp [MultiAct.InRange] : ∀ a ∈ [.producer (.clone 0)], MultiAct.InRange a) hExec
  obtain ⟨hClear, hIdle, hCursor, hFree⟩ := of_decide_eq_true hState
  simp only at hCursor hFree
  obtain ⟨-, -, hAlone⟩ := claiming_linearizable ring64 pollerThenHandler
    (pollerThenHandlerWiring .multiProducer) rfl _ tr s hRun 1
  obtain ⟨-, -, hRefused⟩ := hAlone (.tryBatchPublish 65 fun _ e => e) (MultiPc.eq_idle hIdle)
    (by simp [Op.InRange, Op.n]) (by rw [hCursor]; decide)
  obtain ⟨missing, es, s', hDrives, hMissing, -⟩ := hRefused (by rw [hFree]; simp [Op.n])
  refine ⟨tr, s, s', hRun, hClear, missing, es, hDrives, ?_⟩
  rw [hFree] at hMissing
  simp only [Op.n] at hMissing
  omega

end Calvera
