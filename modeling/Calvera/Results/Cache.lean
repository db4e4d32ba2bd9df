import Calvera.Results.Oversized

/-!
# Results — the cached bound of a single producer

`UniProducer` remembers up to which sequence the consumers were once seen to be
done, and asks them again only beyond it. The remembered bound is consulted many
publications later, when the consumers have moved. They only move forward, so it
is never too high, and a call that asks finds at least as many free slots as the
remembered bound promises.

`uniProducerStepUncached` is the producer that asks every time.

* `cached_bound_agrees` — `next_sequences` answers as if it always asked.
-/

namespace Calvera

open Calvera.Lib Calvera.Protocol

variable {E : Type} {R : RingSize} {T : Topology Nat} {w : Wiring} {tr : List (Event E)}

-- ---------------------------------------------------------------------------
-- Always asking
-- ---------------------------------------------------------------------------

/-- One step of a producer without the fast path: `next_sequences` asks the
consumers whatever the cached bound says. -/
def uniProducerStepUncached (R : RingSize) (barrier : Barrier) (handles : List Nat)
    (exited : Nat → Bool) (m : Memory E) (p : UniProducer E) (act : UniAct E) :
    Option (Memory E × UniProducer E × List (Event E)) :=
  match p.pc, act with
  | .check op nNext, .tick =>
    some (m, { p with pc := .getAfter op nNext (barrier.getAfter (p.sequence - 1)) }, [])
  | _, _ => uniProducerStep R barrier handles exited m p act

/-- `next_sequences` is asking the consumers. -/
def UniPc.asking : UniPc E → Bool
  | .getAfter .. | .freeSlots .. => true
  | _ => false

namespace UniSystem

/-- The next step of the producer without the fast path. -/
def aloneUncached (R : RingSize) (w : Wiring) (s : UniSystem E) :
    Option (UniSystem E × List (Event E)) :=
  match uniProducerStepUncached R w.consumerBarrier w.consumerHandles
      (fun c => (s.consumers c).isExited) s.memory s.producer .tick with
  | none => none
  | some (memory, producer, es) => some ({ s with memory := memory, producer := producer }, es)

variable {s s' : UniSystem E} {op : Op E} {nNext : Int} {es : List (Event E)}

/-- Away from the test of the cached bound the two producers are the same. -/
theorem aloneUncached_eq (hAsking : s.producer.pc.asking = true) :
    aloneUncached R w s = alone R w s := by
  unfold aloneUncached alone step uniProducerStepUncached
  cases hPc : s.producer.pc <;> first | rfl | (rw [hPc] at hAsking; cases hAsking)

/-- The producer asks until it has an answer. -/
theorem asking_step (hAsking : s.producer.pc.asking = true)
    (hs : alone R w s = some (s', es)) (hSilent : emitted es = none) :
    s'.producer.pc.asking = true := by
  have hNil : es = [] := by
    cases es with
    | nil => rfl
    | cons e es => cases hSilent
  subst hNil
  cases uniStep_cases hs with
  | producer hStep =>
    cases hStep with
    | read => rfl
    | answer => rfl
    | accept _ _ _ _ hClaim => cases (Prod.mk.inj hClaim).2
    | refuse _ _ _ hRefuse =>
      unfold UniProducer.refuse at hRefuse
      split at hRefuse <;> cases (Prod.mk.inj hRefuse).2
    | fast hPc => rw [hPc] at hAsking; cases hAsking
    | slow hPc => rw [hPc] at hAsking; cases hAsking
    | updatesEnd hPc => rw [hPc] at hAsking; cases hAsking
    | join hPc => rw [hPc] at hAsking; cases hAsking
    | joined hPc => rw [hPc] at hAsking; cases hAsking

/-- The producer without the fast path asks at once. -/
theorem uncached_iff {r : List (Event E)} :
    Drives (aloneUncached R w) emitted (s.atPc (.check op nNext)) r s' ↔
      Drives (alone R w) emitted (s.atPc (.getAfter op nNext
        (w.consumerBarrier.getAfter (s.producer.sequence - 1)))) r s' := by
  have hStep : aloneUncached R w (s.atPc (.check op nNext)) = some (s.atPc (.getAfter op nNext
      (w.consumerBarrier.getAfter (s.producer.sequence - 1))), []) := rfl
  rw [Drives.advance_iff hStep rfl]
  exact Drives.congr (fun h => aloneUncached_eq h) (fun h => asking_step h) rfl

end UniSystem

-- ---------------------------------------------------------------------------
-- The two versions agree
-- ---------------------------------------------------------------------------

namespace UniInv

open UniSystem

variable {s : UniSystem E} {op : Op E} {nNext : Int}

/-- Inside `next_sequences` everything but the program counter is as between calls. -/
theorem atIdle (hInv : UniInv R T tr s) (hPc : s.producer.pc = .check op nNext) :
    UniInv R T tr (s.atPc .idle) := by
  have hIdle : UniInv R T (tr ++ []) { s with producer := { s.producer with pc := .idle } } :=
    hInv.stay rfl (by rw [hPc]; rfl) hInv.clear rfl ⟨_, _, rfl⟩ trivial
  rwa [List.append_nil] at hIdle

variable (hInv : UniInv R T tr s) (hIdle : s.producer.pc = .idle) (hWired : Wired T .uniProducer w)
include hInv hIdle hWired

/-- Without the fast path the answer is a claim when enough slots are free. -/
theorem uncached_claimed (hle : op.nI64 ≤ freeSlots R w s.memory)
    (hMax : InI64 (s.memory.cursor + freeSlots R w s.memory)) :
    Drives (aloneUncached R w) emitted (s.atPc (.check op (s.memory.cursor + op.nI64)))
      [.claimed 0 s.producer.sequence (s.memory.cursor + op.nI64) op.update]
      (s.claimed op (s.memory.cursor + op.nI64) (s.memory.cursor + freeSlots R w s.memory)) := by
  rw [uncached_iff, hInv.asked_iff hIdle hWired rfl]
  exact .emit (hInv.freeSlots_claimed hIdle hWired hle hMax)

variable (hIn : InI64 (s.memory.cursor + op.nI64))
include hIn

/-- Without the fast path the answer is a refusal when too few slots are free. -/
theorem uncached_refused {missing : Nat}
    (hMissing : missing = asUnsigned (op.nI64 - freeSlots R w s.memory))
    (hlt : freeSlots R w s.memory < op.nI64) :
    Drives (aloneUncached R w) emitted (s.atPc (.check op (s.memory.cursor + op.nI64)))
      (.refused 0 missing :: if op.spins then [] else [.returned 0 (op.failure missing)])
      (s.atPc (if op.spins then .check op (s.memory.cursor + op.nI64) else .idle)) := by
  rw [uncached_iff, hInv.asked_iff hIdle hWired rfl]
  exact .emit (hInv.freeSlots_refused hIdle hWired hIn hMissing hlt)

/-- **With and without the fast path the answer is the same**, if no addition
overflows. -/
theorem cached_iff (hMax : op.nI64 ≤ freeSlots R w s.memory →
      InI64 (s.memory.cursor + freeSlots R w s.memory)) (es : List (Event E)) :
    (∃ s', Drives (alone R w) emitted (s.atPc (.check op (s.memory.cursor + op.nI64))) es s') ↔
      ∃ s', Drives (aloneUncached R w) emitted (s.atPc (.check op (s.memory.cursor + op.nI64)))
        es s' := by
  rcases Int.lt_or_le (freeSlots R w s.memory) op.nI64 with hlt | hle
  · -- too few slots are free
    have hCached := hInv.alone_refused hIdle hWired hIn rfl hlt
    have hUncached := hInv.uncached_refused hIdle hWired hIn rfl hlt
    exact ⟨fun ⟨_, h⟩ => (h.unique hCached).1 ▸ ⟨_, hUncached⟩,
      fun ⟨_, h⟩ => (h.unique hUncached).1 ▸ ⟨_, hCached⟩⟩
  · have hUncached := hInv.uncached_claimed hIdle hWired hle (hMax hle)
    rcases hInv.alone_claimed hIdle hWired hle with ⟨s₁, hCached⟩ | ⟨hOver, -⟩
    · exact ⟨fun ⟨_, h⟩ => (h.unique hCached).1 ▸ ⟨_, hUncached⟩,
        fun ⟨_, h⟩ => (h.unique hUncached).1 ▸ ⟨_, hCached⟩⟩
    · exact absurd (hMax hle) ((hInv.bound_overflows hIdle hWired).mpr hOver)

/-- **The answer is `Ok` exactly when enough slots are free.** -/
theorem claimed_iff (hMax : op.nI64 ≤ freeSlots R w s.memory →
      InI64 (s.memory.cursor + freeSlots R w s.memory)) :
    (∃ s', Drives (alone R w) emitted (s.atPc (.check op (s.memory.cursor + op.nI64)))
      [.claimed 0 s.producer.sequence (s.memory.cursor + op.nI64) op.update] s') ↔
      op.nI64 ≤ freeSlots R w s.memory := by
  constructor
  · rintro ⟨s₁, h⟩
    by_contra hlt
    cases (h.unique (hInv.alone_refused hIdle hWired hIn rfl (Int.not_le.mp hlt))).1
  · intro hle
    rcases hInv.alone_claimed hIdle hWired hle with hClaimed | ⟨hOver, -⟩
    · exact hClaimed
    · exact absurd (hMax hle) ((hInv.bound_overflows hIdle hWired).mpr hOver)

end UniInv

/-- **The cached bound does not show.** In every reachable state of a
single-producer disruptor the cached bound is at most one round ahead of every
consumer. A call of `next_sequences(n)` between calls goes to the test of that
bound, and wherever the test is reached, the answer is the one of the producer
that always asks: `Ok(sequence - 1 + n)` if and only if `n` slots are free behind
the last stage, and else `Err(EMissingFreeSlots(n - free))` with everything but
the program counter as it was. The additions of `next_sequences` are to stay
within `i64`: that of `n`, and that of the free slots when it answers `Ok`. -/
theorem cached_bound_agrees (R : RingSize) (chain : BuildChain) (w : Wiring)
    (hBuild : chain.build buildUniProducerUnchecked = some w) (factory : Nat → E)
    (tr : List (Event E)) (s : UniSystem E) (hRun : UniRun R w factory tr s) :
    s.producer.sequenceClearOfConsumers ≤ minCursor w s.memory + R.size ∧
    (s.producer.pc = .idle → ∀ op : Op E, op.InRange → s.producer.sequence - 1 + op.n ≤ i64Max →
      UniSystem.step R w s (.producer (.call op)) =
        some (s.atPc (.check op (s.producer.sequence - 1 + op.n)), [])) ∧
    ∀ op nNext, s.producer.pc = .check op nNext →
      let free := R.size - (s.producer.sequence - 1 - lastStageMin chain s.memory)
      nNext = s.producer.sequence - 1 + op.n ∧
      ((op.n ≤ free → s.producer.sequence - 1 + free ≤ i64Max) →
        (∀ es, (∃ s', Drives (UniSystem.alone R w) emitted s es s') ↔
          ∃ s', Drives (UniSystem.aloneUncached R w) emitted s es s') ∧
        ((∃ s', Drives (UniSystem.alone R w) emitted s
          [.claimed 0 s.producer.sequence nNext op.update] s') ↔ op.n ≤ free) ∧
        (free < op.n → ∃ missing : Nat, (missing : Int) = op.n - free ∧
          Drives (UniSystem.alone R w) emitted s
            (.refused 0 missing :: if op.spins then [] else [.returned 0 (op.failure missing)])
            (s.atPc (if op.spins then .check op nNext else .idle)))) := by
  have hWired := BuildChain.wired_uni hBuild
  have hInv := hRun.inv hWired
  refine ⟨?_, ?_, ?_⟩
  · have hClear := hInv.clear_le hWired
    unfold freeSlots at hClear
    omega
  · intro hIdle op hRange hFits
    have hIn : InI64 (s.memory.cursor + op.nI64) := by
      have := hInv.sequence
      rw [hInv.cursor, hRange.nI64]
      simp only [InI64, i64Min]
      omega
    have hCall := hInv.call_eq (w := w) hIdle op hIn
    rwa [hInv.cursor, hRange.nI64] at hCall
  · intro op nNext hPc
    obtain ⟨hRange, hNext, hMax⟩ : op.InRange ∧ nNext = s.producer.sequence - 1 + op.nI64 ∧
        nNext ≤ i64Max := by
      have hOk := hInv.pc
      rwa [hPc] at hOk
    have hN := hRange.nI64
    have hCursor := hInv.cursor
    have hGe := hInv.sequence
    rw [hN, ← hCursor] at hNext
    have hIn : InI64 (s.memory.cursor + op.nI64) := by
      simp only [InI64, i64Min]
      omega
    -- the state is that between calls, but for the program counter
    have hInv₀ := hInv.atIdle hPc
    have hSelf : (s.atPc .idle).atPc (.check op (s.memory.cursor + op.n)) = s := by
      rw [← hNext]
      exact UniSystem.atPc_self hPc
    have hFree : R.size - (s.producer.sequence - 1 - lastStageMin chain s.memory) =
        freeSlots R w s.memory := by
      have hMin : lastStageMin chain s.memory = minCursor w s.memory :=
        (hInv₀.idle_consistent rfl).lastStageMin_eq hWired
      rw [hMin, freeSlots, hCursor]
    rw [hFree, ← hCursor]
    refine ⟨hNext, fun hFits => ?_⟩
    have hBound : op.nI64 ≤ freeSlots R w s.memory →
        InI64 (s.memory.cursor + freeSlots R w s.memory) := by
      intro hle
      by_contra hNot
      have hOver := (hInv₀.bound_overflows rfl hWired).mp hNot
      rw [UniSystem.atPc_memory] at hOver
      have := hFits (hN ▸ hle)
      omega
    have hCached := hInv₀.cached_iff rfl hWired hIn hBound
    have hClaimed := hInv₀.claimed_iff rfl hWired hIn hBound
    have hNonneg : 0 ≤ freeSlots R w s.memory := hInv₀.freeSlots_nonneg rfl hWired
    simp only [UniSystem.atPc_memory, UniSystem.atPc_sequence, hN, hSelf] at hCached hClaimed
    refine ⟨hCached, ?_, fun hlt => ⟨(op.n - freeSlots R w s.memory).toNat, by omega, ?_⟩⟩
    · rw [hNext]
      exact hClaimed
    · have hMissing : asUnsigned (op.nI64 - freeSlots R w s.memory) =
          (op.n - freeSlots R w s.memory).toNat := missing_eq hRange hNonneg hlt
      have hRefused := hInv₀.alone_refused rfl hWired hIn hMissing.symm (hN ▸ hlt)
      simp only [UniSystem.atPc_memory, hN, hSelf] at hRefused
      rw [hNext]
      exact hRefused

/-- A call for five events on a fresh ring with four slots, at the test of the
cached bound. -/
def fiveAsked : UniSystem Nat :=
  { freshUni with
    producer := { freshUni.producer with pc := .check (.tryBatchPublish 5 fun _ e => e) 4 } }

theorem cached_bound_agrees_five :
    ∃ missing : Nat, (missing : Int) = 1 ∧
      Drives (UniSystem.alone ring4 (pollerThenHandlerWiring .uniProducer)) emitted fiveAsked
        [.refused 0 missing, .returned 0 (.missingFreeSlots missing)] freshUni := by
  have hRun : UniRun ring4 (pollerThenHandlerWiring .uniProducer) (fun _ => 0) [] fiveAsked :=
    .single (a := .producer (.call (.tryBatchPublish 5 fun _ e => e))) (by decide) rfl
  obtain ⟨-, -, hAgrees⟩ := cached_bound_agrees ring4 pollerThenHandler
    (pollerThenHandlerWiring .uniProducer) rfl (fun _ => 0) [] fiveAsked hRun
  exact (hAgrees _ _ rfl).2 (by decide) |>.2.2 (by decide)

end Calvera
