import Calvera.Refinement.Alone

/-!
# Refinement — whole calls

A publishing call of a producer that runs alone, from the call to its return:
what it returns and the state it leaves, as functions of the free slots, the
cached bound and the list of updates (`Op.updates`).

* `UniInv.returns_iff`, `MultiInv.returns_iff` — what `try_publish` and
  `try_batch_publish` return and leave behind.
-/

namespace Calvera

open Calvera.Lib Calvera.Protocol

variable {E : Type} {R : RingSize} {T : Topology Nat} {w : Wiring} {tr : List (Event E)}

-- ---------------------------------------------------------------------------
-- The updates of a call
-- ---------------------------------------------------------------------------

/-- What the closure of a call does to the claimed events, in order. -/
def Op.updates (op : Op E) : List (E → E) := (List.range op.n).map op.update

@[simp] theorem Op.length_updates (op : Op E) : op.updates.length = op.n := by
  simp [updates]

/-- The batch call whose closure applies the updates in order. -/
def Op.tryBatch (us : List (E → E)) : Op E := .tryBatchPublish us.length fun k => us.getD k id

@[simp] theorem Op.updates_tryBatch (us : List (E → E)) : (Op.tryBatch us).updates = us := by
  refine List.ext_getElem (by simp [tryBatch, n]) fun k _ hk => ?_
  simp only [updates, tryBatch, n, update, List.getElem_map, List.getElem_range]
  exact List.getD_eq_getElem _ _ hk

@[simp] theorem Op.n_tryBatch (us : List (E → E)) : (Op.tryBatch us).n = us.length := rfl

@[simp] theorem Op.success_tryBatch (us : List (E → E)) (upper : Int) :
    (Op.tryBatch us).success upper = .ok upper := rfl

@[simp] theorem Op.failure_tryBatch (us : List (E → E)) (missing : Nat) :
    (Op.tryBatch us).failure missing = .missingFreeSlots missing := rfl

/-- Let the updates change the events from `sequence` on, one after the other. -/
def updateSlots (R : RingSize) (slots : Nat → E) (sequence : Int) : List (E → E) → Nat → E
  | [] => slots
  | update :: rest =>
    let i := R.slot sequence
    updateSlots R (Function.update slots i (update (slots i))) (sequence + 1) rest

-- ---------------------------------------------------------------------------
-- Claiming
-- ---------------------------------------------------------------------------

/-- `n` slots can be claimed behind `cursor`, with `free` slots free and the bound
`clear` cached, and no addition overflows. -/
def Claimable (cursor free clear n : Int) : Prop :=
  n ≤ free ∧ cursor + n ≤ i64Max ∧ (cursor + n ≤ clear ∨ cursor + free ≤ i64Max)

/-- The bound that is cached after claiming `n` slots. -/
def boundAfter (cursor free clear n : Int) : Int :=
  if cursor + n ≤ clear then clear else cursor + free

namespace UniSystem

/-- The call returns `result` and leaves `s'`, when the producer runs alone. -/
def Returns (R : RingSize) (w : Wiring) (s : UniSystem E) (op : Op E) (result : CallResult)
    (s' : UniSystem E) : Prop :=
  ∃ s₁ es, step R w s (.producer (.call op)) = some (s₁, es) ∧
    Drives (alone R w) returned s₁ (0, result) s'

/-- The state after a call that published with these updates. -/
def publishing (R : RingSize) (w : Wiring) (s : UniSystem E) (us : List (E → E)) : UniSystem E :=
  { s with
    memory :=
      { s.memory with
        slots := updateSlots R s.memory.slots s.producer.sequence us
        cursor := s.producer.sequence + us.length - 1 }
    producer :=
      { sequence := s.producer.sequence + us.length
        sequenceClearOfConsumers := boundAfter s.memory.cursor (freeSlots R w s.memory)
          s.producer.sequenceClearOfConsumers us.length
        pc := .idle } }

variable {m : Memory E} {consumers : Nat → ConsumerPc} {p : UniProducer E} {op : Op E}
  {r : Nat × CallResult} {s' : UniSystem E}

/-- With the closure done, the batch is published and the call returns. -/
theorem publish_iff :
    Drives (alone R w) returned ⟨m, consumers, { p with pc := .publish op }⟩ r s' ↔
      r = (0, op.success (p.sequence + op.nI64 - 1)) ∧
      s' = ⟨m.setCursor (p.sequence + op.nI64 - 1), consumers,
        { p with sequence := p.sequence + op.nI64, pc := .idle }⟩ :=
  have hStep : alone R w ⟨m, consumers, { p with pc := .publish op }⟩ =
      some (⟨m.setCursor (p.sequence + op.nI64 - 1), consumers,
        { p with sequence := p.sequence + op.nI64, pc := .idle }⟩,
        [.published 0 (seqRange p.sequence (p.sequence + op.nI64 - 1)),
          .returned 0 (op.success (p.sequence + op.nI64 - 1))]) := rfl
  Drives.stop_iff hStep rfl

/-- The closure of a batch updates the rest of its elements. -/
theorem updates_iff {n k : Nat} {current last : Int} (hLast : last = current + n - 1) :
    Drives (alone R w) returned ⟨m, consumers, { p with pc := .updates op ⟨current, last⟩ k }⟩ r s' ↔
      Drives (alone R w) returned
        ⟨{ m with slots := updateSlots R m.slots current ((List.range' k n).map op.update) },
          consumers, { p with pc := .publish op }⟩ r s' := by
  induction n generalizing m current k with
  | zero =>
    have hNext : MutBatchIter.next ⟨current, last⟩ = none :=
      MutBatchIter.next_eq_none.mpr (by show last < current; omega)
    have hStep : alone R w ⟨m, consumers, { p with pc := .updates op ⟨current, last⟩ k }⟩ =
        some (⟨m, consumers, { p with pc := .publish op }⟩, []) := by
      simp [alone, step, uniProducerStep, hNext]
    exact Drives.advance_iff hStep rfl
  | succ n ih =>
    have hNext : MutBatchIter.next ⟨current, last⟩ = some (current, ⟨current + 1, last⟩) :=
      MutBatchIter.next_eq_some.mpr ⟨by show current ≤ last; omega, rfl, rfl⟩
    have hStep : alone R w ⟨m, consumers, { p with pc := .updates op ⟨current, last⟩ k }⟩ =
        some (⟨m.updateSlot (R.slot current) (op.update k), consumers,
          { p with pc := .updates op ⟨current + 1, last⟩ (k + 1) }⟩, [.updated 0 current]) := by
      simp [alone, step, uniProducerStep, hNext]
    rw [Drives.advance_iff hStep rfl, ih (by omega), List.range'_succ, List.map_cons]
    rfl

/-- **After the claim**, the closure runs and the call publishes and returns. -/
theorem claimed_iff {s : UniSystem E} {nNext clear : Int} (hRange : op.InRange)
    (hBound : boundAfter s.memory.cursor (freeSlots R w s.memory)
      s.producer.sequenceClearOfConsumers op.n = clear) :
    Drives (alone R w) returned (s.claimed op nNext clear) r s' ↔
      r = (0, op.success (s.producer.sequence + op.n - 1)) ∧ s' = s.publishing R w op.updates := by
  rw [publishing, Op.length_updates, hBound]
  have hN := hRange.nI64
  cases hBatch : op.isBatch with
  | true =>
    have hPc : s.claimed op nNext clear = ⟨s.memory, s.consumers,
        ⟨s.producer.sequence, clear, .updates op ⟨s.producer.sequence,
          s.producer.sequence + op.nI64 - 1⟩ 0⟩⟩ := by
      simp [claimed, UniProducer.claim, hBatch, MutBatchIter.new]
    rw [hPc, updates_iff (p := ⟨s.producer.sequence, clear, .idle⟩) (n := op.n) (by omega),
      publish_iff (p := ⟨s.producer.sequence, clear, .idle⟩), hN, Op.updates, List.range_eq_range']
    rfl
  | false =>
    have hPc : s.claimed op nNext clear = ⟨s.memory, s.consumers,
        ⟨s.producer.sequence, clear, .update op⟩⟩ := by
      simp [claimed, UniProducer.claim, hBatch]
    have hOne : op.updates = [op.update 0] := by
      rw [Op.updates, Op.n_of_not_isBatch hBatch]
      rfl
    have hStep : alone R w ⟨s.memory, s.consumers, ⟨s.producer.sequence, clear, .update op⟩⟩ =
        some (⟨s.memory.updateSlot (R.slot s.producer.sequence) (op.update 0), s.consumers,
          ⟨s.producer.sequence, clear, .publish op⟩⟩, [.updated 0 s.producer.sequence]) := rfl
    rw [hPc, Drives.advance_iff hStep rfl, publish_iff (p := ⟨s.producer.sequence, clear, .idle⟩),
      hN, hOne]
    rfl

end UniSystem

namespace UniInv

open UniSystem

variable {s s' : UniSystem E} {op : Op E} {result : CallResult}

/-- A call that does not overflow at once goes through the test of the cached bound. -/
theorem returns_check (hInv : UniInv R T tr s) (hIdle : s.producer.pc = .idle)
    (hIn : InI64 (s.memory.cursor + op.nI64)) :
    s.Returns R w op result s' ↔ Drives (alone R w) returned
      (s.atPc (.check op (s.memory.cursor + op.nI64))) (0, result) s' := by
  simp [Returns, hInv.call_eq (w := w) hIdle op hIn]

/-- Too few slots are free. -/
theorem returns_refused (hInv : UniInv R T tr s) (hIdle : s.producer.pc = .idle)
    (hWired : Wired T .uniProducer w) (hRange : op.InRange) (hTry : op.spins = false)
    (hIn : InI64 (s.memory.cursor + op.nI64)) (hlt : freeSlots R w s.memory < op.n) :
    s.Returns R w op result s' ↔
      result = op.failure (op.n - freeSlots R w s.memory).toNat ∧ s' = s := by
  have hN := hRange.nI64
  have hSlow : s.producer.sequenceClearOfConsumers < s.memory.cursor + op.nI64 := by
    have := hInv.clear_le hWired
    omega
  have hMissing : asUnsigned (op.nI64 - freeSlots R w s.memory) =
      (op.n - freeSlots R w s.memory).toNat :=
    missing_eq hRange (hInv.freeSlots_nonneg hIdle hWired) hlt
  generalize (op.n - freeSlots R w s.memory).toNat = missing at hMissing ⊢
  have hStep := hInv.freeSlots_refused hIdle hWired hIn hMissing.symm (hN ▸ hlt)
  have hOutcome : returned ([.refused 0 missing, .returned 0 (op.failure missing)] :
      List (Event E)) = some (0, op.failure missing) := rfl
  rw [hTry, if_neg (by simp), if_neg (by simp), atPc_self hIdle] at hStep
  rw [hInv.returns_check hIdle hIn, hInv.slow_iff hIdle hWired hSlow rfl,
    Drives.stop_iff hStep hOutcome]
  simp

/-- Enough slots are free. -/
theorem returns_published (hInv : UniInv R T tr s) (hIdle : s.producer.pc = .idle)
    (hWired : Wired T .uniProducer w) (hRange : op.InRange)
    (hIn : InI64 (s.memory.cursor + op.nI64)) (hle : op.n ≤ freeSlots R w s.memory) :
    s.Returns R w op result s' ↔
      (s.memory.cursor + op.n ≤ s.producer.sequenceClearOfConsumers ∨
        s.memory.cursor + freeSlots R w s.memory ≤ i64Max) ∧
      result = op.success (s.memory.cursor + op.n) ∧ s' = s.publishing R w op.updates := by
  have hN := hRange.nI64
  have hUpper : s.memory.cursor + op.n = s.producer.sequence + op.n - 1 := by
    rw [hInv.cursor]
    omega
  have hBound := hInv.bound_overflows hIdle hWired
  rw [hInv.returns_check hIdle hIn]
  have hPublished : ∀ b, boundAfter s.memory.cursor (freeSlots R w s.memory)
      s.producer.sequenceClearOfConsumers op.n = b →
      (Drives (alone R w) returned (s.claimed op (s.memory.cursor + op.nI64) b) (0, result) s' ↔
        result = op.success (s.memory.cursor + op.n) ∧ s' = s.publishing R w op.updates) := by
    intro b hb
    rw [claimed_iff hRange hb, ← hUpper]
    simp
  by_cases hFast : s.memory.cursor + op.nI64 ≤ s.producer.sequenceClearOfConsumers
  · -- the cached bound does
    rw [Drives.advance_iff (alone_fast hFast) rfl]
    rw [hN] at hFast
    rw [← hN, hPublished _ (if_pos hFast), hN]
    simp [hFast]
  · rw [hInv.slow_iff hIdle hWired (Int.not_le.mp hFast) rfl]
    by_cases hMax : InI64 (s.memory.cursor + freeSlots R w s.memory)
    · -- the consumers say so
      rw [Drives.advance_iff (hInv.freeSlots_claimed hIdle hWired (hN ▸ hle) hMax) rfl]
      rw [hN] at hFast
      rw [hPublished _ (if_neg hFast)]
      simp [hMax.2]
    · -- the new bound overflows, and the thread is stopped
      have hStuck : alone R w (s.atPc .overflowed) = none := rfl
      have hOver := hBound.mp hMax
      rw [Drives.advance_iff (hInv.freeSlots_overflowed hIdle hWired (hN ▸ hle) hMax) rfl]
      rw [hN] at hFast
      simp [Drives.not_stuck hStuck, hFast, Int.not_le.mpr hOver]

/-- **What a call returns and leaves behind**: it is refused and changes nothing,
or it publishes. When an addition overflows it does not return. -/
theorem returns_iff (hInv : UniInv R T tr s) (hIdle : s.producer.pc = .idle)
    (hWired : Wired T .uniProducer w) (hRange : op.InRange) (hTry : op.spins = false) :
    s.Returns R w op result s' ↔
      (freeSlots R w s.memory < op.n ∧ s.memory.cursor + op.n ≤ i64Max ∧
        result = op.failure (op.n - freeSlots R w s.memory).toNat ∧ s' = s) ∨
      (Claimable s.memory.cursor (freeSlots R w s.memory) s.producer.sequenceClearOfConsumers op.n ∧
        result = op.success (s.memory.cursor + op.n) ∧ s' = s.publishing R w op.updates) := by
  have hN := hRange.nI64
  have hGe := hInv.sequence
  have hCursor := hInv.cursor
  unfold Claimable
  by_cases hFits : s.memory.cursor + op.n ≤ i64Max
  · have hIn : InI64 (s.memory.cursor + op.nI64) := by
      simp only [InI64, i64Min]
      omega
    rcases Int.lt_or_le (freeSlots R w s.memory) op.n with hlt | hle
    · rw [hInv.returns_refused hIdle hWired hRange hTry hIn hlt]
      simp [hlt, hFits, Int.not_le.mpr hlt]
    · rw [hInv.returns_published hIdle hWired hRange hIn hle]
      simp [hle, hFits, Int.not_lt.mpr hle]
  · -- the call overflows at once, and the thread is stopped
    have hNot : ¬ InI64 (s.memory.cursor + op.nI64) := by
      simp only [InI64, hN]
      omega
    have hStuck : alone R w (s.atPc .overflowed) = none := rfl
    simp [Returns, hInv.call_overflowed (w := w) hIdle hNot, Drives.not_stuck hStuck, hFits]

end UniInv

/-! ### One call after the other -/

namespace UniSystem

/-- The calls `try_publish(u)` are made one after the other and all succeed,
returning these sequences. -/
inductive Singles (R : RingSize) (w : Wiring) :
    UniSystem E → List (E → E) → List Int → UniSystem E → Prop
  | nil {s : UniSystem E} : Singles R w s [] [] s
  | cons {s s₁ s' : UniSystem E} {u : E → E} {us : List (E → E)} {q : Int} {qs : List Int} :
      s.Returns R w (.tryPublish u) (.ok q) s₁ → Singles R w s₁ us qs s' →
      Singles R w s (u :: us) (q :: qs) s'

variable {s s' : UniSystem E} {u : E → E} {us : List (E → E)} {qs : List Int} {factory : Nat → E}

/-- A call that returned is part of a run. -/
theorem Returns.run {op : Op E} {result : CallResult} (h : s.Returns R w op result s')
    (hRange : op.InRange) (hRun : UniRun R w factory tr s) : ∃ tr', UniRun R w factory tr' s' := by
  obtain ⟨s₁, es, hCall, hDrives⟩ := h
  obtain ⟨tr', hRest⟩ : ∃ tr', Run (step R w) UniAct.InRange s₁ tr' s' :=
    hDrives.run (a := .producer .tick) trivial fun _ => rfl
  have hOk : UniAct.InRange (.producer (.call op)) := hRange
  exact ⟨_, (hRun.snoc hOk hCall).trans hRest⟩

theorem publishing_cursor (hInv : UniInv R T tr s) :
    (s.publishing R w us).memory.cursor = s.memory.cursor + us.length := by
  rw [hInv.cursor]
  show s.producer.sequence + us.length - 1 = _
  omega

end UniSystem

end Calvera
