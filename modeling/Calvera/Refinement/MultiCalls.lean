import Calvera.Refinement.Calls
import Calvera.Refinement.PublishEach

/-!
# Refinement — whole calls of a handle

The counterpart of `Refinement.Calls` for the handles of a `MultiProducer`. The
other handles may be anywhere in their calls; they do not move. Publishing goes
through the bitfield, word by word, and leaves what publishing one sequence
after the other leaves.

* `MultiInv.returns_iff`        — what `try_publish` and `try_batch_publish`
  return and leave behind.
* `MultiSystem.singles_iff`     — the same of single publications in a row.
-/

namespace Calvera

open Calvera.Lib Calvera.Protocol

variable {E : Type} {R : RingSize} {T : Topology Nat} {w : Wiring} {tr : List (Event E)}

/-- Flipping bits changes the bitfield only. -/
theorem Memory.fetchXors_eq (m : Memory E) (commits : List (Nat × BitVec 64)) :
    m.fetchXors commits = { m with available := (m.fetchXors commits).available } := by
  induction commits generalizing m with
  | nil => rfl
  | cons commit rest ih =>
    show (m.fetchXor commit.1 commit.2).fetchXors rest = _
    rw [ih]
    rfl

namespace MultiSystem

/-- The call of handle `h` returns `result` and leaves `s'`, when it runs alone. -/
def Returns (R : RingSize) (w : Wiring) (s : MultiSystem E) (h : Nat) (op : Op E)
    (result : CallResult) (s' : MultiSystem E) : Prop :=
  ∃ s₁ es, step R w s (.producer (.handle h (.call op))) = some (s₁, es) ∧
    Drives (alone R w h) returned s₁ (h, result) s'

/-- The state after a call of handle `h` that published with these updates. -/
def publishing (R : RingSize) (w : Wiring) (s : MultiSystem E) (h : Nat) (us : List (E → E)) :
    MultiSystem E :=
  let upper := s.memory.cursor + us.length
  { s with
    memory :=
      { s.memory with
        slots := updateSlots R s.memory.slots (s.memory.cursor + 1) us
        cursor := upper
        available := (s.memory.publishEach R (seqRange (s.memory.cursor + 1) upper)).available }
    producer := s.producer.setHandle h
      { claimedSequence := upper
        sequenceClearOfConsumers := boundAfter s.memory.cursor (freeSlots R w s.memory)
          (s.producer.handles h).sequenceClearOfConsumers us.length
        pc := .idle } }

variable {m : Memory E} {consumers : Nat → ConsumerPc} {ps : SharedProducers E}
  {p : MultiProducer E} {h : Nat} {op : Op E} {r : Nat × CallResult} {s' : MultiSystem E}

/-- A step of handle `h` on its own record and the memory. -/
theorem alone_set {m' : Memory E} {p' : MultiProducer E} {es : List (Event E)}
    (hs : multiProducerStep R w.consumerBarrier w.consumerHandles
      (fun c => (consumers c).isExited) h m p .tick = some (m', p', es)) :
    alone R w h ⟨m, consumers, ps.setHandle h p⟩ = some (⟨m', consumers, ps.setHandle h p'⟩, es) := by
  have hSame : (ps.setHandle h p).handles h = p := by simp [SharedProducers.setHandle]
  simp only [alone, step, hSame, hs]
  simp [SharedProducers.setHandle]

/-- With the closure done, one sequence is published and the call returns. -/
theorem publish_iff :
    Drives (alone R w h) returned ⟨m, consumers, ps.setHandle h { p with pc := .publish op }⟩ r s' ↔
      r = (h, op.success p.claimedSequence) ∧
      s' = ⟨m.publish R p.claimedSequence, consumers, ps.setHandle h { p with pc := .idle }⟩ := by
  have hStep : alone R w h ⟨m, consumers, ps.setHandle h { p with pc := .publish op }⟩ =
      some (⟨m.publish R p.claimedSequence, consumers, ps.setHandle h { p with pc := .idle }⟩,
        [.published h [p.claimedSequence], .returned h (op.success p.claimedSequence)]) :=
    alone_set rfl
  exact Drives.stop_iff hStep rfl

/-- `publish_range_relaxed` runs to its end, and the call returns. -/
theorem publishRange_iff {commits : List (Nat × BitVec 64)} {fuel : Nat} {range : PublishRange}
    (hRun : range.run R fuel = some commits) :
    Drives (alone R w h) returned
        ⟨m, consumers, ps.setHandle h { p with pc := .publishRange op range }⟩ r s' ↔
      r = (h, op.success p.claimedSequence) ∧
      s' = ⟨m.fetchXors commits, consumers, ps.setHandle h { p with pc := .idle }⟩ := by
  induction fuel generalizing m range commits with
  | zero => cases hRun
  | succ fuel ih =>
    rw [PublishRange.run] at hRun
    have hTick : ∀ {m' : Memory E} {p' : MultiProducer E} {es : List (Event E)},
        multiProducerStep R w.consumerBarrier w.consumerHandles (fun c => (consumers c).isExited) h m
          { p with pc := .publishRange op range } .tick = some (m', p', es) →
        alone R w h ⟨m, consumers, ps.setHandle h { p with pc := .publishRange op range }⟩ =
          some (⟨m', consumers, ps.setHandle h p'⟩, es) := alone_set
    simp only [multiProducerStep] at hTick
    rcases hs : range.step R with ⟨_ | commit, _ | next⟩ <;> rw [hs] at hRun hTick
    · obtain rfl := Option.some.inj hRun
      exact Drives.stop_iff (hTick rfl) rfl
    · obtain ⟨rest, hRest, rfl⟩ := Option.map_eq_some_iff.mp hRun
      rw [Drives.advance_iff (hTick rfl) rfl]
      exact ih hRest
    · obtain rfl := Option.some.inj hRun
      exact Drives.stop_iff (hTick rfl) rfl
    · obtain ⟨rest, hRest, rfl⟩ := Option.map_eq_some_iff.mp hRun
      rw [Drives.advance_iff (hTick rfl) rfl]
      exact ih hRest

/-- The closure of a batch updates the rest of its elements. -/
theorem updates_iff {n k : Nat} {current last : Int} (hLast : last = current + n - 1) :
    Drives (alone R w h) returned
        ⟨m, consumers, ps.setHandle h { p with pc := .updates op ⟨current, last⟩ k }⟩ r s' ↔
      Drives (alone R w h) returned
        ⟨{ m with slots := updateSlots R m.slots current ((List.range' k n).map op.update) },
          consumers, ps.setHandle h { p with
            pc := .publishRange op (.new R (p.claimedSequence - op.nI64 + 1) op.nI64) }⟩ r s' := by
  induction n generalizing m current k with
  | zero =>
    have hNext : MutBatchIter.next ⟨current, last⟩ = none :=
      MutBatchIter.next_eq_none.mpr (by show last < current; omega)
    exact Drives.advance_iff (alone_set (by simp only [multiProducerStep, hNext]; rfl)) rfl
  | succ n ih =>
    have hNext : MutBatchIter.next ⟨current, last⟩ = some (current, ⟨current + 1, last⟩) :=
      MutBatchIter.next_eq_some.mpr ⟨by show current ≤ last; omega, rfl, rfl⟩
    rw [Drives.advance_iff (alone_set (by simp only [multiProducerStep, hNext]; rfl)) rfl,
      ih (by omega), List.range'_succ, List.map_cons]
    rfl

/-- The bitfield after publishing a range. -/
theorem publishRange_run (h64 : 64 ∣ R.size) (start : Int) (n : Nat) :
    ∃ commits, (PublishRange.new R start n).run R (n + 1) = some commits ∧ ∀ m : Memory E,
      (m.fetchXors commits).available =
        (m.publishEach R (seqRange start (start + n - 1))).available := by
  have hAt := PublishRange.new_at R start (Int.natCast_nonneg n)
  obtain ⟨commits, hRun, hCommits⟩ := hAt.run_commits h64
    (by simp [PublishRange.new] : _ = _ + (n : Int))
  rw [PublishRange.new_start, PublishRange.new_n] at hCommits
  refine ⟨commits, hRun, fun m => ?_⟩
  obtain ⟨ends, -, hLast, -, hPrefix⟩ := hCommits.prefixes m
  have hAll := (hPrefix commits.length (le_refl _)).2
  rwa [List.take_length, hLast, Int.add_zero] at hAll

/-- **After the claim**, the closure runs and the call publishes and returns. -/
theorem claimed_iff (h64 : 64 ∣ R.size) {s : MultiSystem E} {nNext clear : Int}
    (hRange : op.InRange) (hNext : nNext = s.memory.cursor + op.n)
    (hBound : boundAfter s.memory.cursor (freeSlots R w s.memory)
      (s.producer.handles h).sequenceClearOfConsumers op.n = clear) :
    Drives (alone R w h) returned (s.claimed h op nNext clear) r s' ↔
      r = (h, op.success (s.memory.cursor + op.n)) ∧ s' = s.publishing R w h op.updates := by
  have hN := hRange.nI64
  subst hNext
  rw [publishing, Op.length_updates, hBound]
  cases hBatch : op.isBatch with
  | true =>
    have hPc : s.claimed h op (s.memory.cursor + op.n) clear =
        ⟨s.memory.setCursor (s.memory.cursor + op.n), s.consumers, s.producer.setHandle h
          ⟨s.memory.cursor + op.n, clear, .updates op ⟨s.memory.cursor + 1,
            s.memory.cursor + op.n⟩ 0⟩⟩ := by
      simp [claimed, MultiProducer.claim, hBatch, MutBatchIter.new, hN]
    obtain ⟨commits, hRun, hAvailable⟩ := publishRange_run (E := E) h64 (s.memory.cursor + 1) op.n
    have hFirst : s.memory.cursor + op.n - op.nI64 + 1 = s.memory.cursor + 1 := by omega
    have hPublished : ∀ m : Memory E, m.available = s.memory.available →
        m.fetchXors commits = { m with available := (s.memory.publishEach R
          (seqRange (s.memory.cursor + 1) (s.memory.cursor + op.n))).available } := by
      intro m hSame
      rw [Memory.fetchXors_eq, hAvailable, Memory.publishEach_available hSame,
        show s.memory.cursor + 1 + op.n - 1 = s.memory.cursor + (op.n : Int) by omega]
    rw [hPc, updates_iff (p := ⟨s.memory.cursor + op.n, clear, .idle⟩) (n := op.n) (by omega),
      hFirst, hN, publishRange_iff (p := ⟨s.memory.cursor + op.n, clear, .idle⟩) hRun,
      hPublished, Op.updates, List.range_eq_range']
    · rfl
    · rfl
  | false =>
    have hPc : s.claimed h op (s.memory.cursor + op.n) clear =
        ⟨s.memory.setCursor (s.memory.cursor + op.n), s.consumers, s.producer.setHandle h
          ⟨s.memory.cursor + op.n, clear, .update op⟩⟩ := by
      simp [claimed, MultiProducer.claim, hBatch]
    have hOne := Op.n_of_not_isBatch hBatch
    have hUpdates : op.updates = [op.update 0] := by
      rw [Op.updates, hOne]
      rfl
    rw [hPc, Drives.advance_iff (alone_set rfl) rfl,
      publish_iff (p := ⟨s.memory.cursor + op.n, clear, .idle⟩), hUpdates, hOne, Nat.cast_one,
      seqRange_self]
    rfl

end MultiSystem

namespace MultiInv

open MultiSystem

variable {s s' : MultiSystem E} {h : Nat} {op : Op E} {result : CallResult}

/-- A call that does not overflow at once goes through the test of the cached bound. -/
theorem returns_check (hIdle : (s.producer.handles h).pc = .idle)
    (hIn : InI64 (s.memory.cursor + op.nI64)) :
    s.Returns R w h op result s' ↔ Drives (alone R w h) returned
      (s.atPc h (.check op s.memory.cursor (s.memory.cursor + op.nI64))) (h, result) s' := by
  rw [← current_iff rfl hIn]
  simp [Returns, call_eq (R := R) (w := w) hIdle op]

/-- Too few slots are free. -/
theorem returns_refused (hInv : MultiInv R T tr s) (hIdle : (s.producer.handles h).pc = .idle)
    (hWired : Wired T .multiProducer w) (hRange : op.InRange) (hTry : op.spins = false)
    (hIn : InI64 (s.memory.cursor + op.nI64)) (hlt : freeSlots R w s.memory < op.n) :
    s.Returns R w h op result s' ↔
      result = op.failure (op.n - freeSlots R w s.memory).toNat ∧ s' = s := by
  have hN := hRange.nI64
  have hSlow : (s.producer.handles h).sequenceClearOfConsumers < s.memory.cursor + op.nI64 := by
    have := hInv.clear_le hWired h
    omega
  have hMissing : asUnsigned (op.nI64 - freeSlots R w s.memory) =
      (op.n - freeSlots R w s.memory).toNat :=
    missing_eq hRange (hInv.freeSlots_nonneg hWired) hlt
  generalize (op.n - freeSlots R w s.memory).toNat = missing at hMissing ⊢
  have hStep : alone R w h (s.atPc h (.freeSlots op s.memory.cursor (s.memory.cursor + op.nI64)
      (minCursor w s.memory))) = _ := hInv.freeSlots_refused hWired hMissing.symm (hN ▸ hlt)
  have hOutcome : returned ([.refused h missing, .returned h (op.failure missing)] :
      List (Event E)) = some (h, op.failure missing) := rfl
  rw [hTry, if_neg (by simp), if_neg (by simp), atPc_self hIdle] at hStep
  rw [returns_check hIdle hIn, hInv.slow_iff hWired hSlow rfl, Drives.stop_iff hStep hOutcome]
  simp

/-- Enough slots are free. -/
theorem returns_published (hInv : MultiInv R T tr s) (hIdle : (s.producer.handles h).pc = .idle)
    (hWired : Wired T .multiProducer w) (h64 : 64 ∣ R.size) (hRange : op.InRange)
    (hIn : InI64 (s.memory.cursor + op.nI64)) (hle : op.n ≤ freeSlots R w s.memory) :
    s.Returns R w h op result s' ↔
      (s.memory.cursor + op.n ≤ (s.producer.handles h).sequenceClearOfConsumers ∨
        s.memory.cursor + freeSlots R w s.memory ≤ i64Max) ∧
      result = op.success (s.memory.cursor + op.n) ∧ s' = s.publishing R w h op.updates := by
  have hN := hRange.nI64
  have hPublished : ∀ b, boundAfter s.memory.cursor (freeSlots R w s.memory)
      (s.producer.handles h).sequenceClearOfConsumers op.n = b →
      (Drives (alone R w h) returned (s.claimed h op (s.memory.cursor + op.nI64) b) (h, result) s' ↔
        result = op.success (s.memory.cursor + op.n) ∧ s' = s.publishing R w h op.updates) := by
    intro b hb
    rw [claimed_iff h64 hRange (by rw [hN]) hb]
    simp
  rw [returns_check hIdle hIn]
  by_cases hFast : s.memory.cursor + op.nI64 ≤ (s.producer.handles h).sequenceClearOfConsumers
  · -- the cached bound does
    rw [Drives.advance_iff (alone_fast hFast) rfl, Drives.advance_iff alone_exchange_self rfl]
    rw [hN] at hFast
    rw [hPublished _ (if_pos hFast)]
    simp [hFast]
  · rw [hInv.slow_iff hWired (Int.not_le.mp hFast) rfl]
    by_cases hMax : InI64 (s.memory.cursor + freeSlots R w s.memory)
    · -- the consumers say so, and the bound is cached
      rw [Drives.advance_iff (hInv.freeSlots_accepted hWired (hN ▸ hle) hMax) rfl,
        Drives.advance_iff (alone_exchange op _ _) rfl]
      rw [hN] at hFast
      rw [hPublished _ (if_neg hFast)]
      simp [hMax.2]
    · -- the new bound overflows, and the thread is stopped
      have hStuck : alone R w h (s.atPc h .overflowed) = none := by
        simp [alone, MultiSystem.step, multiProducerStep_overflowed]
      have hOver := (hInv.bound_overflows hWired).mp hMax
      rw [Drives.advance_iff (hInv.freeSlots_overflowed hWired (hN ▸ hle) hMax) rfl]
      rw [hN] at hFast
      simp [Drives.not_stuck hStuck, hFast, Int.not_le.mpr hOver]

/-- **What a call returns and leaves behind**: it is refused and changes nothing,
or it publishes. When an addition overflows it does not return. -/
theorem returns_iff (hInv : MultiInv R T tr s) (hIdle : (s.producer.handles h).pc = .idle)
    (hWired : Wired T .multiProducer w) (h64 : 64 ∣ R.size) (hRange : op.InRange)
    (hTry : op.spins = false) :
    s.Returns R w h op result s' ↔
      (freeSlots R w s.memory < op.n ∧ s.memory.cursor + op.n ≤ i64Max ∧
        result = op.failure (op.n - freeSlots R w s.memory).toNat ∧ s' = s) ∨
      (Claimable s.memory.cursor (freeSlots R w s.memory)
          (s.producer.handles h).sequenceClearOfConsumers op.n ∧
        result = op.success (s.memory.cursor + op.n) ∧ s' = s.publishing R w h op.updates) := by
  have hN := hRange.nI64
  have hGe := hInv.cursor_ge
  unfold Claimable
  by_cases hFits : s.memory.cursor + op.n ≤ i64Max
  · have hIn : InI64 (s.memory.cursor + op.nI64) := by
      simp only [InI64, i64Min]
      omega
    rcases Int.lt_or_le (freeSlots R w s.memory) op.n with hlt | hle
    · rw [hInv.returns_refused hIdle hWired hRange hTry hIn hlt]
      simp [hlt, hFits, Int.not_le.mpr hlt]
    · rw [hInv.returns_published hIdle hWired h64 hRange hIn hle]
      simp [hle, hFits, Int.not_lt.mpr hle]
  · -- the call overflows at once, and the thread is stopped
    have hNot : ¬ InI64 (s.memory.cursor + op.nI64) := by
      simp only [InI64, hN]
      omega
    have hStuck : alone R w h (s.atPc h .overflowed) = none := by
      simp [alone, MultiSystem.step, multiProducerStep_overflowed]
    have hStep : alone R w h (s.atPc h (.current op)) =
        some (s.atPc h .overflowed, [.overflowed h]) :=
      alone_from (by simp [multiProducerStep, MultiProducer.loop, addI64, hNot])
    have hSilent : returned [(.overflowed h : Event E)] = none := rfl
    simp [Returns, call_eq (R := R) (w := w) hIdle op, Drives.advance_iff hStep hSilent,
      Drives.not_stuck hStuck, hFits]

end MultiInv

-- ---------------------------------------------------------------------------
-- One call after the other
-- ---------------------------------------------------------------------------

namespace MultiSystem

/-- Handle `h` makes the calls `try_publish(u)` one after the other, and all
succeed, returning these sequences. -/
inductive Singles (R : RingSize) (w : Wiring) (h : Nat) :
    MultiSystem E → List (E → E) → List Int → MultiSystem E → Prop
  | nil {s : MultiSystem E} : Singles R w h s [] [] s
  | cons {s s₁ s' : MultiSystem E} {u : E → E} {us : List (E → E)} {q : Int} {qs : List Int} :
      s.Returns R w h (.tryPublish u) (.ok q) s₁ → Singles R w h s₁ us qs s' →
      Singles R w h s (u :: us) (q :: qs) s'

variable {s s' : MultiSystem E} {h : Nat} {u : E → E} {us : List (E → E)} {qs : List Int}

/-- A call that returned is part of a run. -/
theorem Returns.run {R : MultiRingSize} {factory : Nat → E} {op : Op E} {result : CallResult}
    (hReturns : s.Returns R.toRingSize w h op result s') (hRange : op.InRange)
    (hRun : MultiRun R w factory tr s) : ∃ tr', MultiRun R w factory tr' s' := by
  obtain ⟨s₁, es, hCall, hDrives⟩ := hReturns
  obtain ⟨tr', hRest⟩ : ∃ tr', Run (step R.toRingSize w) MultiAct.InRange s₁ tr' s' :=
    hDrives.run (a := .producer (.handle h .tick)) trivial fun _ => rfl
  have hOk : MultiAct.InRange (.producer (.handle h (.call op))) := hRange
  exact ⟨_, (hRun.snoc hOk hCall).trans hRest⟩

end MultiSystem

end Calvera
