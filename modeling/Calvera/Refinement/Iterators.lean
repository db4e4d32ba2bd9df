import Calvera.Code.Iterators
import Calvera.Refinement.Disruptor

/-!
# Refinement — the iterators over events

Both iterators walk a window of sequences from a first one to a last one.
`Walks` is what their `next` functions have in common; from it follow the
sequences still to come (`Walks.yields`) and the window that is left after any
number of calls (`Walks.first_iterate`), exhausted or not.

In a running disruptor the windows are those of guards and of claimed batches:

* `Disruptor.guardWindow` — the window of an open guard.
* `UniInv.batchWindow`, `MultiInv.batchWindow` — what is left of a batch.
-/

namespace Calvera

open Calvera.Lib Calvera.Protocol

variable {E P A : Type}

-- ---------------------------------------------------------------------------
-- Windows
-- ---------------------------------------------------------------------------

/-- `next` walks from `first` to `last`. -/
structure Walks {σ : Type} (next : σ → Option (Int × σ)) (first last : σ → Int) : Prop where
  next_none : ∀ s, next s = none ↔ last s < first s
  next_some : ∀ {s t s'}, next s = some (t, s') →
    t = first s ∧ first s' = first s + 1 ∧ last s' = last s

namespace Walks

variable {σ : Type} {next : σ → Option (Int × σ)} {first last : σ → Int}

/-- It yields its window in order. -/
theorem yields (h : Walks next first last) (s : σ) :
    Yields next s (seqRange (first s) (last s)) := by
  -- by induction on the length of the window
  generalize hLength : (last s - first s + 1).toNat = n
  induction n generalizing s with
  | zero =>
    have hlt : last s < first s := by omega
    rw [seqRange_eq_nil hlt]
    exact .done ((h.next_none s).mpr hlt)
  | succ n ih =>
    have hle : first s ≤ last s := by omega
    cases hNext : next s with
    | none =>
      have := (h.next_none s).mp hNext
      omega
    | some x =>
      obtain ⟨t, s'⟩ := x
      obtain ⟨rfl, hFirst, hLast⟩ := h.next_some hNext
      have hRest := ih s' (by omega)
      rw [hFirst, hLast] at hRest
      rw [seqRange_cons hle]
      exact .more hNext hRest

theorem last_iterate (h : Walks next first last) (s : σ) (k : Nat) :
    last ((advance next)^[k] s) = last s :=
  iterate_induct (P := fun s' => last s' = last s)
    (fun _ _ _ hSame hNext => (h.next_some hNext).2.2.trans hSame) rfl k

/-- Each call moves one sequence on, until the window is used up. -/
theorem first_iterate (h : Walks next first last) (s : σ) (k : Nat) :
    first ((advance next)^[k] s) = first s + (min k (last s - first s + 1).toNat : Nat) := by
  induction k with
  | zero => simp
  | succ k ih =>
    have hLast := h.last_iterate s k
    rw [Function.iterate_succ_apply']
    cases hNext : next ((advance next)^[k] s) with
    | none =>
      have := (h.next_none _).mp hNext
      rw [advance_of_none hNext, ih]
      omega
    | some x =>
      obtain ⟨t, s'⟩ := x
      have hle : ¬ last ((advance next)^[k] s) < first ((advance next)^[k] s) := by
        rw [← h.next_none, hNext]
        simp
      rw [advance_of_some hNext, (h.next_some hNext).2.1, ih]
      omega

end Walks

theorem EventGuard.walks :
    Walks EventGuard.next EventGuard.sequence EventGuard.available where
  next_none _ := EventGuard.next_eq_none
  next_some hNext := by
    obtain ⟨-, rfl, rfl⟩ := EventGuard.next_eq_some.mp hNext
    exact ⟨rfl, rfl, rfl⟩

theorem MutBatchIter.walks : Walks MutBatchIter.next MutBatchIter.current MutBatchIter.last where
  next_none _ := MutBatchIter.next_eq_none
  next_some hNext := by
    obtain ⟨-, rfl, rfl⟩ := MutBatchIter.next_eq_some.mp hNext
    exact ⟨rfl, rfl, rfl⟩

/-- The count `last - first + 1` is computed without overflow and is not
negative; taking the next sequence does not overflow either. -/
structure WindowInI64 (first last : Int) : Prop where
  distance : InI64 (last - first)
  count : InI64 (last - first + 1)
  nonneg : 0 ≤ last - first + 1
  next : first ≤ last → InI64 (first + 1)

/-- Where the count fits, it is the length of the window. -/
theorem asUnsigned_count {first last : Int} (hle : first ≤ last + 1)
    (hCount : last - first + 1 ≤ i64Max) :
    asUnsigned (last - first + 1) = (seqRange first last).length := by
  rw [length_seqRange]
  exact asUnsigned_of_nonneg (by omega) hCount

/-- What a window of `n` sequences leaves after `k` calls stays in `i64`. -/
theorem WindowInI64.of_le {first last : Int} {n k : Nat} (hFirst : i64Min ≤ first)
    (hCount : last - first + 1 = n) (hn : n < 2 ^ 63) (hLast : n = 0 ∨ last < i64Max) :
    WindowInI64 (first + (min k n : Nat)) last := by
  constructor <;> simp only [InI64, i64Min, i64Max] at * <;> omega

-- ---------------------------------------------------------------------------
-- The windows of a running disruptor
-- ---------------------------------------------------------------------------

variable {R : RingSize} {T : Topology Nat} {w : Wiring}

/-- An open guard is a window of at most one round. -/
theorem Disruptor.guardWindow {producerBarrier : Barrier}
    {step : System P E → Act A → Option (System P E × List (Event E))} {ok : Act A → Prop}
    {s₀ s : System P E} (hD : Disruptor R T w producerBarrier step ok s₀) {tr : List (Event E)}
    (hRun : Run step ok s₀ tr s) {c : Nat} {spec : ConsumerSpec}
    (hSpec : w.consumers[c]? = some spec) {guard : EventGuard}
    (hGuard : (s.consumers c).openGuard = some guard) :
    0 ≤ guard.sequence ∧ guard.sequence ≤ guard.available + 1 ∧ guard.available ≤ i64Max ∧
      guard.available - guard.sequence + 1 ≤ R.size := by
  obtain ⟨claimed, hC, -⟩ := hD.consistent hRun
  have hMem := hD.wired.mem hSpec
  have hPc := ConsumerPc.openGuard_eq_some.mp hGuard
  have hOk := hC.consumers c hMem
  rw [hPc] at hOk
  obtain ⟨hlo, hhi⟩ := hOk
  have hCursor : -1 ≤ s.memory.consumerCursors c := hC.inv.cursor_ge c hMem
  have hGranted : (s.consumers c).granted (s.memory.consumerCursors c) ≤ claimed :=
    hC.inv.granted_le_claimed hMem
  have hRoom : claimed - R.size ≤ s.memory.consumerCursors c := hC.inv.le_cursor hC.inv.room hMem
  have hMax := hC.claimed_le
  have hFirst : s.memory.consumerCursors c < guard.sequence := hlo
  rw [hPc] at hGranted
  simp only [ConsumerPc.granted] at hGranted
  omega

/-- What a single producer's closure has not taken yet. -/
theorem UniInv.batchWindow {tr : List (Event E)} {s : UniSystem E} (h : UniInv R T tr s)
    {op : Op E} {iter : MutBatchIter} {k : Nat} (hPc : s.producer.pc = .updates op iter k) :
    op.InRange ∧ k ≤ op.n ∧ 0 ≤ iter.current ∧ iter.last ≤ i64Max ∧
      iter.last - iter.current + 1 = (op.n - k : Nat) := by
  have hOk := h.pc
  rw [hPc] at hOk
  obtain ⟨hRange, hLast, hCurrent, hk⟩ := hOk
  have hClaimed := h.consistent.claimed_le
  have hSequence := h.sequence
  simp only [UniProducer.claimed, hPc, UniPc.inFlight] at hClaimed
  rw [hRange.nI64] at hLast hClaimed
  refine ⟨hRange, hk, ?_, ?_, ?_⟩ <;> omega

/-- What the closure of a handle has not taken yet. -/
theorem MultiInv.batchWindow {tr : List (Event E)} {s : MultiSystem E} (h : MultiInv R T tr s)
    {handle : Nat} {op : Op E} {iter : MutBatchIter} {k : Nat}
    (hPc : (s.producer.handles handle).pc = .updates op iter k) :
    op.InRange ∧ k ≤ op.n ∧ 0 ≤ iter.current ∧ iter.last ≤ i64Max ∧
      iter.last - iter.current + 1 = (op.n - k : Nat) := by
  have hOk := h.handle handle
  simp only [MultiProducer.Ok, hPc] at hOk
  obtain ⟨hHolds, -, hLast, hCurrent, hk⟩ := hOk
  have hMax := h.consistent.claimed_le
  obtain ⟨hLower, hUpper⟩ := h.tiled.bounds hHolds.claim
  simp only [hHolds.inRange.nI64] at hLower hUpper hCurrent
  refine ⟨hHolds.inRange, hk, ?_, ?_, ?_⟩ <;> omega

end Calvera
