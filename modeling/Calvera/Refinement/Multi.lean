import Calvera.Code.System
import Calvera.Protocol.Ledger
import Calvera.Refinement.Claims
import Calvera.Refinement.Consumers
import Calvera.Refinement.PublishRange

/-!
# Refinement — the cloneable producer

Every step of a multi-producer disruptor is a move of the pipeline, or none:
the successful compare-exchange claims, each `fetch_xor` publishes a block. The
claimed sequences of a handle that are not flipped yet are what it owes
(`MultiProducer.owed`); flipped, owed and abandoned sequences partition
`0..=cursor` (`MultiInv.ledger`).

What makes the parity bits readable is that all claims stay within one round of
every consumer (`Inv.lap`), so a bit distinguishes "this round" from "the round
before".

* `MultiRun.inv` — the invariant holds in every reachable state.
-/

namespace Calvera

open Calvera.Lib Calvera.Protocol

variable {E : Type} {R : RingSize} {T : Topology Nat} {w : Wiring} {factory : Nat → E}

-- ---------------------------------------------------------------------------
-- The invariant
-- ---------------------------------------------------------------------------

/-- Sequence `s` was claimed by the call in progress. -/
def MultiProducer.InFlight (p : MultiProducer E) (s : Int) : Prop :=
  match p.pc with
  | .update op | .updates op _ _ | .publish op | .publishRange op _ =>
    p.claimedSequence - op.nI64 < s ∧ s ≤ p.claimedSequence
  | _ => False

/-- The claimed sequences that are still to be made available. -/
def MultiProducer.owed (flipped : List Int) (p : MultiProducer E) : Set Int :=
  {s | p.InFlight s ∧ s ∉ flipped}

/-- What `next_sequences` knows: `current` was the cursor at some moment, and
`n_next` does not overflow. -/
structure Target (a : State Nat) (op : Op E) (current nNext : Int) : Prop where
  inRange : op.InRange
  ge : -1 ≤ current
  le : current ≤ a.claimed
  next : nNext = current + op.nI64
  max : nNext ≤ i64Max

/-- The call in progress holds a claim of at most one round. -/
structure Holds (R : RingSize) (tr : List (Event E)) (h : Nat) (p : MultiProducer E) (op : Op E) :
    Prop where
  inRange : op.InRange
  le_size : op.n ≤ R.size
  claim : ⟨h, p.claimedSequence - op.nI64 + 1, p.claimedSequence, op.update⟩ ∈ claims tr

/-- Nothing of the claim in hand is flipped yet. -/
def MultiProducer.Untouched (flipped : List Int) (p : MultiProducer E) : Prop :=
  ∀ s, p.InFlight s → s ∉ flipped

/-- What the local variables of handle `h` say. -/
def MultiProducer.Ok (R : RingSize) (T : Topology Nat) (a : State Nat) (tr : List (Event E))
    (h : Nat) (p : MultiProducer E) : Prop :=
  match p.pc with
  | .current op => op.InRange
  | .check op current nNext => Target a op current nNext
  | .getAfter op current nNext g =>
    Target a op current nNext ∧ g.Sound R T .multiProducer a (T.last + 1) current
  | .freeSlots op current nNext rear => Target a op current nNext ∧ a.Passed T (T.last + 1) rear
  | .compareExchange op current nNext =>
    Target a op current nNext ∧ nNext ≤ p.sequenceClearOfConsumers
  | .update op | .publish op => Holds R tr h p op ∧ op.isBatch = false ∧ p.Untouched (flips tr)
  | .updates op iter k => Holds R tr h p op ∧ p.Untouched (flips tr) ∧
      iter.last = p.claimedSequence ∧ iter.current = p.claimedSequence - op.nI64 + 1 + k ∧ k ≤ op.n
  | .publishRange op r => Holds R tr h p op ∧ r.start = p.claimedSequence - op.nI64 + 1 ∧
      r.n = op.nI64 ∧ ∃ m, r.At R m ∧ ∀ s, p.InFlight s → (s ∈ flips tr ↔ s < r.start + m)
  | _ => True

/-- The invariant of a multi-producer disruptor. -/
structure MultiInv (R : RingSize) (T : Topology Nat) (tr : List (Event E)) (s : MultiSystem E) :
    Prop where
  consistent : s.Consistent R T .multiProducer s.memory.cursor (publishedBy tr)
  ledger : Ledger (flips tr) s.memory.cursor (fun h => (s.producer.handles h).owed (flips tr))
    {t | Abandoned tr t}
  tiled : Tiled (claims tr) s.memory.cursor
  clear : ∀ h, ∀ c ∈ T.members,
    (s.producer.handles h).sequenceClearOfConsumers ≤ s.memory.consumerCursors c + R.size
  handle : ∀ h, (s.producer.handles h).Ok R T (s.pipeline s.memory.cursor (publishedBy tr)) tr h
  absent : ∀ h, s.producer.nextHandle ≤ h → s.producer.handles h = .none

theorem Target.later {a a' : State Nat} {op : Op E} {current nNext : Int}
    (h : Target a op current nNext) (hClaimed : a.claimed ≤ a'.claimed) :
    Target a' op current nNext :=
  ⟨h.inRange, h.ge, h.le.trans hClaimed, h.next, h.max⟩

theorem Holds.later {tr tr' : List (Event E)} {h : Nat} {p : MultiProducer E} {op : Op E}
    (hp : Holds R tr h p op) (hClaims : claims tr ⊆ claims tr') : Holds R tr' h p op :=
  ⟨hp.inRange, hp.le_size, hClaims hp.claim⟩

/-- What others do leaves a handle's local variables in order. -/
theorem MultiProducer.Ok.later {a a' : State Nat} {tr tr' : List (Event E)} {h : Nat}
    {p : MultiProducer E} (hp : p.Ok R T a tr h) (hLater : a.Later T a')
    (hClaimed : a.claimed ≤ a'.claimed) (hClaims : claims tr ⊆ claims tr')
    (hFlips : ∀ s, p.InFlight s → (s ∈ flips tr' ↔ s ∈ flips tr)) : p.Ok R T a' tr' h := by
  have hUntouched : p.Untouched (flips tr) → p.Untouched (flips tr') :=
    fun hp s hs => (hFlips s hs).not.mpr (hp s hs)
  unfold Ok at hp ⊢
  split <;> rename_i hPc <;> simp only [hPc] at hp
  · exact hp
  · exact hp.later hClaimed
  · exact ⟨hp.1.later hClaimed, hp.2.later hLater⟩
  · exact ⟨hp.1.later hClaimed, hp.2.later hLater⟩
  · exact ⟨hp.1.later hClaimed, hp.2⟩
  · exact ⟨hp.1.later hClaims, hp.2.1, hUntouched hp.2.2⟩
  · exact ⟨hp.1.later hClaims, hp.2.1, hUntouched hp.2.2⟩
  · exact ⟨hp.1.later hClaims, hUntouched hp.2.1, hp.2.2⟩
  · obtain ⟨hHolds, hStart, hN, m, hAt, hm⟩ := hp
    exact ⟨hHolds.later hClaims, hStart, hN, m, hAt, fun s hs => (hFlips s hs).trans (hm s hs)⟩
  · trivial

/-- Naming a handle in the table of all. -/
theorem SharedProducers.setHandle_handles (ps : SharedProducers E) (h h' : Nat)
    (p : MultiProducer E) :
    (ps.setHandle h p).handles h' = if h' = h then p else ps.handles h' := by
  simp [setHandle, Function.update_apply]

theorem owed_none (flipped : List Int) : (MultiProducer.none : MultiProducer E).owed flipped = ∅ := by
  ext s
  simp [MultiProducer.owed, MultiProducer.InFlight, MultiProducer.none]

/-- The handle is in the loop of `publish_range_relaxed`: of the sequences of its
claim those below offset `m` are flipped. -/
structure MultiProducer.Committing (R : RingSize) (tr : List (Event E)) (h : Nat)
    (p : MultiProducer E) (op : Op E) (r : PublishRange) (m : Int) : Prop where
  pc : p.pc = .publishRange op r
  holds : Holds R tr h p op
  start : r.start = p.claimedSequence - op.nI64 + 1
  length : r.n = op.nI64
  stands : r.At R m
  flipped : ∀ s, p.InFlight s → (s ∈ flips tr ↔ s < r.start + m)

theorem MultiProducer.Ok.committing {a : State Nat} {tr : List (Event E)} {h : Nat}
    {p : MultiProducer E} {op : Op E} {r : PublishRange} (hp : p.Ok R T a tr h)
    (hPc : p.pc = .publishRange op r) : ∃ m, p.Committing R tr h op r m := by
  unfold Ok at hp
  simp only [hPc] at hp
  obtain ⟨hHolds, hStart, hN, m, hAt, hm⟩ := hp
  exact ⟨m, hPc, hHolds, hStart, hN, hAt, hm⟩

namespace MultiProducer.Committing

variable {tr : List (Event E)} {h : Nat} {p : MultiProducer E} {op : Op E} {r : PublishRange}
  {m upper t : Int} {index : Nat} {mask : BitVec 64}

/-- The claim is the range of the loop. -/
theorem inFlight (hC : p.Committing R tr h op r m) :
    p.InFlight t ↔ r.start ≤ t ∧ t < r.start + r.n := by
  have hStart := hC.start
  have hLength := hC.length
  unfold InFlight
  simp only [hC.pc]
  omega

/-- A mask that starts at offset `m` commits the sequences from there on. -/
theorem mem_committed (hC : p.Committing R tr h op r m)
    (hMarks : Marks R index mask (r.start + m) upper) (hUpper : upper < r.start + r.n) :
    t ∈ r.committed R index mask ↔ r.start + m ≤ t ∧ t ≤ upper := by
  have hNonneg := hC.stands.nonneg
  have hSize := hC.holds.le_size
  have hLength := hC.length.trans hC.holds.inRange.nI64
  exact PublishRange.mem_committed hMarks (by omega) (by omega) (by omega)

/-- These were still owed. -/
theorem owed (hC : p.Committing R tr h op r m)
    (hMarks : Marks R index mask (r.start + m) upper) (hUpper : upper < r.start + r.n)
    (ht : t ∈ r.committed R index mask) : t ∈ p.owed (flips tr) := by
  obtain ⟨hlo, hhi⟩ := (hC.mem_committed hMarks hUpper).mp ht
  have hNonneg := hC.stands.nonneg
  have hIn : p.InFlight t := hC.inFlight.mpr ⟨by omega, by omega⟩
  refine ⟨hIn, fun hOld => ?_⟩
  have := (hC.flipped t hIn).mp hOld
  omega

end MultiProducer.Committing

namespace MultiInv

variable {tr : List (Event E)} {s : MultiSystem E} {memory : Memory E} {p' : MultiProducer E}
  {es : List (Event E)} {h : Nat}

theorem init (h64 : 64 ∣ R.size) (hWired : Wired T .multiProducer w) :
    MultiInv R T [] (MultiSystem.init R w factory) := by
  have hNone : publishedBy ([] : List (Event E)) = {s | s < 0} := by
    ext s
    simp
  have hSize := Nat.le_of_dvd R.pos h64
  have hHandles : ∀ h, (MultiSystem.init R w factory).producer.handles h =
      if h = 0 then .new R else .none := fun h => by
    simp [MultiSystem.init, System.init, SharedProducers.new, Function.update_apply]
  refine ⟨?_, ?_, .nil, ?_, ?_, ?_⟩
  · rw [hNone]
    exact .init hWired (.inr ⟨rfl, h64⟩) factory _
  · have hLost : {t | Abandoned ([] : List (Event E)) t} = ∅ := by
      ext t
      simp
    rw [hLost]
    refine .init fun h => ?_
    rw [hHandles]
    split
    · ext t
      simp [MultiProducer.owed, MultiProducer.InFlight, MultiProducer.new]
    · exact owed_none _
  · intro h c _
    rw [hHandles]
    show _ ≤ -1 + (R.size : Int)
    split
    · simp only [MultiProducer.new, R.sizeI64_eq]
      omega
    · simp only [MultiProducer.none]
      omega
  · intro h
    rw [hHandles]
    split <;> trivial
  · intro h hge
    have hge' : 1 ≤ h := hge
    rw [hHandles, if_neg (by omega)]

/-- The invariant after a step of handle `h`, from what the step does to the
pipeline and to the ledger. -/
theorem update_handle (hInv : MultiInv R T tr s) (hName : h < s.producer.nextHandle)
    (hCursors : memory.consumerCursors = s.memory.consumerCursors)
    (hCursor : s.memory.cursor ≤ memory.cursor) (hMax : memory.cursor ≤ i64Max)
    (hSteps : Steps T R.size (s.pipeline s.memory.cursor (publishedBy tr))
      (s.pipeline memory.cursor (publishedBy (tr ++ es))))
    (hRep : Represents R .multiProducer memory (s.pipeline memory.cursor (publishedBy (tr ++ es))))
    (hOther : ∀ h' ≠ h, ∀ t, (s.producer.handles h').InFlight t → t ∉ flips es)
    (hLedger : Ledger (flips (tr ++ es)) memory.cursor
      (fun h' => ((s.producer.setHandle h p').handles h').owed (flips (tr ++ es)))
      {t | Abandoned (tr ++ es) t})
    (hTiled : Tiled (claims (tr ++ es)) memory.cursor)
    (hClear : ∀ c ∈ T.members,
      p'.sequenceClearOfConsumers ≤ s.memory.consumerCursors c + R.size)
    (hOk : p'.Ok R T (s.pipeline memory.cursor (publishedBy (tr ++ es))) (tr ++ es) h) :
    MultiInv R T (tr ++ es)
      { s with memory := memory, producer := s.producer.setHandle h p' } := by
  have hSame : System.pipeline (P := SharedProducers E)
      { s with memory := memory, producer := s.producer.setHandle h p' } memory.cursor
        (publishedBy (tr ++ es)) = s.pipeline memory.cursor (publishedBy (tr ++ es)) := by
    simp only [System.pipeline, hCursors]
  refine ⟨?_, hLedger, hTiled, ?_, ?_, ?_⟩
  · exact hInv.consistent.producer rfl hCursors hSteps hRep hMax
  · intro h' c hMem
    simp only [SharedProducers.setHandle_handles, hCursors]
    split
    · exact hClear c hMem
    · exact hInv.clear h' c hMem
  · intro h'
    rw [hSame]
    simp only [SharedProducers.setHandle_handles]
    split
    · rename_i hEq
      exact hEq ▸ hOk
    · rename_i hne
      refine (hInv.handle h').later hSteps.later hCursor ?_ fun t ht => ?_
      · rw [claims_append]
        exact List.subset_append_left _ _
      · rw [flips_append, List.mem_append, or_iff_left (hOther h' hne t ht)]
  · intro h' hge
    simp only [SharedProducers.setHandle_handles]
    have hge' : s.producer.nextHandle ≤ h' := hge
    rw [if_neg (by omega)]
    exact hInv.absent h' hge'

/-- The claimed sequences are within one round of every cursor. -/
theorem cursor_le (hInv : MultiInv R T tr s) {c : Nat} (hMem : c ∈ T.members) :
    s.memory.cursor ≤ s.memory.consumerCursors c + R.size :=
  hInv.consistent.inv.claimed_le hMem

theorem cursor_ge (hInv : MultiInv R T tr s) : -1 ≤ s.memory.cursor := hInv.tiled.ge

/-- What a handle owes is not published. -/
theorem owed_fresh (hInv : MultiInv R T tr s) {t : Int}
    (ht : t ∈ (s.producer.handles h).owed (flips tr)) : t ∉ publishedBy tr := by
  have hBounds := hInv.ledger.owed_bounds h t ht
  rw [mem_publishedBy, not_or]
  exact ⟨by omega, ht.2⟩

/-- A step of a handle that neither claims nor publishes nor gives up. -/
theorem quiet (hInv : MultiInv R T tr s) (hName : h < s.producer.nextHandle)
    (hMemory : ∃ slots shutdown,
      memory = { s.memory with slots := slots, shutdownAtSequence := shutdown })
    (hFlips : flips es = []) (hClaims : claims es = []) (hNone : ∀ t, ¬ Abandoned es t)
    (hOwed : p'.owed (flips tr) = (s.producer.handles h).owed (flips tr))
    (hClear : ∀ c ∈ T.members,
      p'.sequenceClearOfConsumers ≤ s.memory.consumerCursors c + R.size)
    (hOk : p'.Ok R T (s.pipeline s.memory.cursor (publishedBy tr)) tr h) :
    MultiInv R T (tr ++ es)
      { s with memory := memory, producer := s.producer.setHandle h p' } := by
  obtain ⟨slots, shutdown, rfl⟩ := hMemory
  have hFlips' : flips (tr ++ es) = flips tr := by rw [flips_append, hFlips, List.append_nil]
  have hPublished : publishedBy (tr ++ es) = publishedBy tr := by
    ext t
    simp [hFlips]
  have hLost : {t | Abandoned (tr ++ es) t} = {t | Abandoned tr t} := by
    ext t
    simp [hNone]
  refine hInv.update_handle hName rfl (le_refl _) hInv.consistent.claimed_le ?_ ?_ ?_ ?_ ?_ hClear ?_
  · rw [hPublished]
    exact .refl
  · rw [hPublished]
    exact ⟨fun _ => rfl, hInv.consistent.represents.published⟩
  · rw [hFlips]
    exact fun _ _ _ _ => List.not_mem_nil
  · rw [hFlips', hLost]
    have hSame : (fun h' => ((s.producer.setHandle h p').handles h').owed (flips tr)) =
        fun h' => (s.producer.handles h').owed (flips tr) := by
      funext h'
      rw [SharedProducers.setHandle_handles]
      split
      · rename_i hEq
        rw [hOwed, hEq]
      · rfl
    rw [hSame]
    exact hInv.ledger
  · rw [claims_append, hClaims, List.append_nil]
    exact hInv.tiled
  · rw [hPublished]
    refine hOk.later (.refl _) (le_refl _) ?_ fun t _ => by rw [hFlips']
    rw [claims_append]
    exact List.subset_append_left _ _

/-- **Claiming**: the compare-exchange succeeded. -/
theorem claim (hInv : MultiInv R T tr s) (hName : h < s.producer.nextHandle) {op : Op E}
    {current nNext : Int}
    (hTarget : Target (s.pipeline s.memory.cursor (publishedBy tr)) op current nNext)
    (hCurrent : s.memory.cursor = current)
    (hle : nNext ≤ (s.producer.handles h).sequenceClearOfConsumers)
    (hNone : (s.producer.handles h).owed (flips tr) = ∅)
    (hClaim : (s.producer.handles h).claim h op current nNext = (p', es)) :
    MultiInv R T (tr ++ es)
      { s with memory := s.memory.setCursor nNext, producer := s.producer.setHandle h p' } := by
  subst hCurrent
  have hN := hTarget.inRange.nI64
  have hNext := hTarget.next
  unfold MultiProducer.claim at hClaim
  obtain ⟨rfl, rfl⟩ := Prod.mk.inj hClaim
  set claim : Claim E := ⟨h, s.memory.cursor + 1, nNext, op.update⟩ with hDef
  set p' : MultiProducer E := { s.producer.handles h with
    claimedSequence := nNext
    pc := if op.isBatch then .updates op (.new (nNext - op.nI64 + 1) nNext) 0 else .update op }
    with hp'
  set es : List (Event E) := [.claimed h (s.memory.cursor + 1) nNext op.update]
  have hFlips : flips (tr ++ es) = flips tr := by simp [es, flips, Event.sequences]
  have hClaims : claims (tr ++ es) = claims tr ++ [claim] := by
    simp [es, claims, Event.claim?, hDef]
  have hLost : {t | Abandoned (tr ++ es) t} = {t | Abandoned tr t} := by
    ext t
    simp [es, Abandoned]
  have hPublished : publishedBy (tr ++ es) = publishedBy tr := by
    ext t
    rw [mem_publishedBy, mem_publishedBy, hFlips]
  have hInFlight : ∀ t, p'.InFlight t ↔ s.memory.cursor < t ∧ t ≤ nNext := by
    intro t
    have hRange : nNext - op.nI64 < t ∧ t ≤ nNext ↔ s.memory.cursor < t ∧ t ≤ nNext := by omega
    rw [← hRange, hp']
    cases hBatch : op.isBatch <;> simp [MultiProducer.InFlight]
  have hNew : ∀ t, t ∈ p'.owed (flips tr) ↔ s.memory.cursor < t ∧ t ≤ nNext := by
    intro t
    refine ⟨fun ht => (hInFlight t).mp ht.1, fun ht => ⟨(hInFlight t).mpr ht, fun hIn => ?_⟩⟩
    have := hInv.ledger.published_bounds t hIn
    omega
  have hSize : op.n ≤ R.size := by
    obtain ⟨c, hMem⟩ := T.nonempty
    have := hInv.clear h c hMem
    have : s.memory.consumerCursors c ≤ s.memory.cursor :=
      hInv.consistent.inv.cursor_le_claimed hMem
    omega
  have hMove : Step T R.size (s.pipeline s.memory.cursor (publishedBy tr))
      (s.pipeline nNext (publishedBy tr)) := by
    rw [show nNext = s.memory.cursor + op.n by omega]
    refine .claim op.n fun c hMem _ => ?_
    have := hInv.clear h c hMem
    show s.memory.cursor + op.n - R.size ≤ s.memory.consumerCursors c
    omega
  refine hInv.update_handle hName rfl ?_ hTarget.max ?_ ?_ ?_ ?_ ?_ (hInv.clear h) ?_
  · show s.memory.cursor ≤ nNext
    omega
  · rw [hPublished]
    exact .single hMove
  · rw [hPublished]
    exact ⟨fun _ => rfl, hInv.consistent.represents.published⟩
  · simp [es, flips, Event.sequences]
  · rw [hFlips, hLost]
    refine hInv.ledger.claim (h := h) hInv.cursor_ge (by show _ ≤ nNext; omega) ?_ hNone ?_
    · intro t
      rw [SharedProducers.setHandle_handles, if_pos rfl]
      exact hNew t
    · intro h' hne
      rw [SharedProducers.setHandle_handles, if_neg hne]
  · rw [hClaims]
    exact hInv.tiled.snoc rfl (by show s.memory.cursor ≤ nNext; omega)
  · have hHolds : Holds R (tr ++ es) h p' op := by
      refine ⟨hTarget.inRange, hSize, ?_⟩
      rw [hClaims]
      refine List.mem_append_right _ (List.mem_singleton.mpr ?_)
      rw [hDef, Claim.mk.injEq]
      exact ⟨rfl, by show nNext - op.nI64 + 1 = s.memory.cursor + 1; omega, rfl, rfl⟩
    have hUntouched : p'.Untouched (flips (tr ++ es)) := by
      intro t ht
      rw [hFlips]
      exact ((hNew t).mpr ((hInFlight t).mp ht)).2
    cases hBatch : op.isBatch with
    | true =>
      have hPc : p'.pc = .updates op (.new (nNext - op.nI64 + 1) nNext) 0 := by simp [hp', hBatch]
      unfold MultiProducer.Ok
      rw [hPc]
      exact ⟨hHolds, hUntouched, rfl, by simp [MutBatchIter.new, hp'], Nat.zero_le _⟩
    | false =>
      have hPc : p'.pc = .update op := by simp [hp', hBatch]
      unfold MultiProducer.Ok
      rw [hPc]
      exact ⟨hHolds, hBatch, hUntouched⟩

/-- **Giving up**: the closure unwound, and nothing of its claim was published. -/
theorem unwind (hInv : MultiInv R T tr s) (hName : h < s.producer.nextHandle) {slots : Nat → E}
    {lower upper : Int}
    (hRange : ∀ t, (s.producer.handles h).InFlight t ↔ lower ≤ t ∧ t ≤ upper)
    (hUntouched : (s.producer.handles h).Untouched (flips tr)) :
    MultiInv R T (tr ++ [.unwound h lower upper])
      { s with
        memory := { s.memory with slots := slots }
        producer := s.producer.setHandle h { s.producer.handles h with pc := .idle } } := by
  have hFlips : flips (tr ++ [.unwound h lower upper]) = flips tr := by
    simp [flips, Event.sequences]
  have hClaims : claims (tr ++ [.unwound h lower upper]) = claims tr := by
    simp [claims, Event.claim?]
  have hPublished : publishedBy (tr ++ [.unwound h lower upper]) = publishedBy tr := by
    ext t
    rw [mem_publishedBy, mem_publishedBy, hFlips]
  refine hInv.update_handle hName rfl (le_refl _) hInv.consistent.claimed_le ?_ ?_ ?_ ?_ ?_
    (hInv.clear h) trivial
  · rw [hPublished]
    exact .refl
  · rw [hPublished]
    exact ⟨fun _ => rfl, hInv.consistent.represents.published⟩
  · simp [flips, Event.sequences]
  · rw [hFlips]
    refine hInv.ledger.lose (h := h) ?_ ?_ ?_
    · intro t
      have hOwed : t ∈ (s.producer.handles h).owed (flips tr) ↔ lower ≤ t ∧ t ≤ upper :=
        ⟨fun ht => (hRange t).mp ht.1, fun ht =>
          ⟨(hRange t).mpr ht, hUntouched t ((hRange t).mpr ht)⟩⟩
      rw [hOwed]
      exact abandoned_append.trans (or_congr_right abandoned_unwound)
    · rw [SharedProducers.setHandle_handles, if_pos rfl]
      ext t
      simp [MultiProducer.owed, MultiProducer.InFlight]
    · intro h' hne
      rw [SharedProducers.setHandle_handles, if_neg hne]
  · rw [hClaims]
    exact hInv.tiled

/-- **Publishing a block**: one `fetch_xor` flips the bits of `lower..=upper`,
which the handle owes. -/
theorem flip (hInv : MultiInv R T tr s) (hName : h < s.producer.nextHandle) {index : Nat}
    {mask : BitVec 64} {lower upper : Int} {new : List Int}
    (hBlock : lower ≤ upper) (hMarks : Marks R index mask lower upper)
    (hMem : ∀ t, t ∈ new ↔ lower ≤ t ∧ t ≤ upper)
    (hNodup : new.Nodup) (hFlips : flips es = new) (hClaims : claims es = [])
    (hNone : ∀ t, ¬ Abandoned es t)
    (hOwed : ∀ t ∈ new, t ∈ (s.producer.handles h).owed (flips tr))
    (hRest : ∀ t, t ∈ p'.owed (flips (tr ++ es)) ↔
      t ∈ (s.producer.handles h).owed (flips tr) ∧ t ∉ new)
    (hClear : p'.sequenceClearOfConsumers = (s.producer.handles h).sequenceClearOfConsumers)
    (hOk : p'.Ok R T (s.pipeline s.memory.cursor (publishedBy (tr ++ es))) (tr ++ es) h) :
    MultiInv R T (tr ++ es)
      { s with
        memory := s.memory.fetchXor index mask
        producer := s.producer.setHandle h p' } := by
  have hPublished : publishedBy (tr ++ es) = publishedBy tr ∪ {t | lower ≤ t ∧ t ≤ upper} := by
    ext t
    rw [Set.mem_union, mem_publishedBy, mem_publishedBy, flips_append, hFlips, List.mem_append,
      hMem]
    exact or_assoc.symm
  have hLost : {t | Abandoned (tr ++ es) t} = {t | Abandoned tr t} := by
    ext t
    simp [hNone]
  have hLe : ∀ t, lower ≤ t → t ≤ upper → t ≤ s.memory.cursor := fun t hlo hhi =>
    (hInv.ledger.owed_bounds h t (hOwed t ((hMem t).mpr ⟨hlo, hhi⟩))).2
  have hMove : Step T R.size (s.pipeline s.memory.cursor (publishedBy tr))
      (s.pipeline s.memory.cursor (publishedBy tr ∪ {t | lower ≤ t ∧ t ≤ upper})) :=
    .publish _ fun t ht => hLe t ht.1 ht.2
  refine hInv.update_handle hName rfl (le_refl _) hInv.consistent.claimed_le ?_ ?_ ?_ ?_ ?_ ?_ hOk
  · rw [hPublished]
    exact .single hMove
  · rw [hPublished]
    obtain ⟨h64, hEnc⟩ := hInv.consistent.represents.published
    obtain ⟨c, hc⟩ := T.nonempty
    refine ⟨fun _ => rfl, h64, ?_⟩
    refine hMarks.encodes hEnc (hInv.consistent.lap hc) (fun t hlo hhi => ?_) ?_
    · exact hInv.owed_fresh (hOwed t ((hMem t).mpr ⟨hlo, hhi⟩))
    · exact (hLe upper hBlock (le_refl _)).trans (hInv.cursor_le hc)
  · rw [hFlips]
    intro h' hne t ht hIn
    have hOwed' := hOwed t hIn
    exact hne (hInv.ledger.owed_unique h' h t ⟨ht, hOwed'.2⟩ hOwed')
  · rw [hLost, flips_append, hFlips]
    refine hInv.ledger.publish (h := h) hNodup hOwed ?_ ?_
    · intro t
      rw [SharedProducers.setHandle_handles, if_pos rfl, ← hFlips, ← flips_append, hFlips]
      exact hRest t
    · intro h' hne
      rw [SharedProducers.setHandle_handles, if_neg hne]
      ext t
      refine ⟨fun ht => ⟨ht.1, fun hIn => ht.2 (List.mem_append_left _ hIn)⟩, fun ht => ⟨ht.1, ?_⟩⟩
      rw [List.mem_append, not_or]
      refine ⟨ht.2, fun hIn => hne (hInv.ledger.owed_unique h' h t ht (hOwed t hIn))⟩
  · rw [claims_append, hClaims, List.append_nil]
    exact hInv.tiled
  · rw [hClear]
    exact hInv.clear h

/-- A handle that exists has a name that is taken. -/
theorem name_lt (hInv : MultiInv R T tr s) (hPc : (s.producer.handles h).pc ≠ .absent) :
    h < s.producer.nextHandle := by
  by_contra hge
  exact hPc (by rw [hInv.absent h (Nat.not_lt.mp hge)]; rfl)

/-- A step of a handle without a claim in hand. -/
theorem wait (hInv : MultiInv R T tr s) (hName : h < s.producer.nextHandle)
    (hOut : ∀ t, ¬ (s.producer.handles h).InFlight t) (hOut' : ∀ t, ¬ p'.InFlight t)
    (hFlips : flips es = []) (hClaims : claims es = []) (hNone : ∀ t, ¬ Abandoned es t)
    (hClear : ∀ c ∈ T.members,
      p'.sequenceClearOfConsumers ≤ s.memory.consumerCursors c + R.size)
    (hOk : p'.Ok R T (s.pipeline s.memory.cursor (publishedBy tr)) tr h) :
    MultiInv R T (tr ++ es) { s with producer := s.producer.setHandle h p' } := by
  refine hInv.quiet hName ⟨_, _, rfl⟩ hFlips hClaims hNone ?_ hClear hOk
  ext t
  simp [MultiProducer.owed, hOut, hOut']

/-- A step inside the closure or between two commits: the claim in hand stays as it is. -/
theorem carry (hInv : MultiInv R T tr s) (hName : h < s.producer.nextHandle)
    {pc : MultiPc E} {slots : Nat → E}
    (hSame : ∀ t, MultiProducer.InFlight { s.producer.handles h with pc := pc } t ↔
      (s.producer.handles h).InFlight t)
    (hFlips : flips es = []) (hClaims : claims es = []) (hNone : ∀ t, ¬ Abandoned es t)
    (hOk : MultiProducer.Ok R T (s.pipeline s.memory.cursor (publishedBy tr)) tr h
      { s.producer.handles h with pc := pc }) :
    MultiInv R T (tr ++ es)
      { s with
        memory := { s.memory with slots := slots }
        producer := s.producer.setHandle h { s.producer.handles h with pc := pc } } := by
  refine hInv.quiet hName ⟨_, _, rfl⟩ hFlips hClaims hNone ?_ (hInv.clear h) hOk
  ext t
  simp only [MultiProducer.owed, hSame]

/-- With `current` read from the cursor, the loop of `next_sequences` starts over. -/
theorem loop (hInv : MultiInv R T tr s) (hName : h < s.producer.nextHandle) {op : Op E}
    (hRange : op.InRange) (hOut : ∀ t, ¬ (s.producer.handles h).InFlight t)
    (hLoop : (s.producer.handles h).loop h op s.memory.cursor = (p', es)) :
    MultiInv R T (tr ++ es) { s with producer := s.producer.setHandle h p' } := by
  rcases MultiProducer.loop_cases hLoop with ⟨rfl, rfl⟩ | ⟨rfl, rfl, hIn⟩
  · exact hInv.wait hName hOut (fun _ ht => ht) rfl rfl (by simp [Abandoned]) (hInv.clear h) trivial
  · exact hInv.wait hName hOut (fun _ ht => ht) rfl rfl (by simp) (hInv.clear h)
      ⟨hRange, hInv.cursor_ge, le_refl _, rfl, hIn.2⟩

/-- **Every step of a handle keeps the invariant.** -/
theorem handle_step (hInv : MultiInv R T tr s) (hWired : Wired T .multiProducer w)
    {act : HandleAct E} (hRange : ∀ op, act = .call op → op.InRange) {exited : Nat → Bool}
    (hStep : MultiStep R w.consumerBarrier w.consumerHandles exited h s.memory
      (s.producer.handles h) act memory p' es) :
    MultiInv R T (tr ++ es)
      { s with memory := memory, producer := s.producer.setHandle h p' } := by
  have hOk := hInv.handle h
  have hName := hInv.name_lt hStep.present
  have hRep := hInv.consistent.represents
  have hClear := hInv.clear h
  have h64 := hRep.published.1
  have hCall := fun current => hWired.consumerBarrier.sound hRep current
  have hInFlight : ∀ t, (s.producer.handles h).InFlight t ↔ (s.producer.handles h).InFlight t :=
    fun _ => Iff.rfl
  unfold MultiProducer.Ok at hOk
  conv at hInFlight => enter [t, 2]; unfold MultiProducer.InFlight
  cases hStep with
  | call hPc =>
    simp only [hPc, iff_false] at hInFlight
    exact hInv.wait hName hInFlight (fun _ ht => ht) rfl rfl (by simp) hClear (hRange _ rfl)
  | load hPc hLoop =>
    simp only [hPc, iff_false] at hOk hInFlight
    exact hInv.loop hName hOk hInFlight hLoop
  | slow hPc hlt =>
    simp only [hPc, iff_false] at hOk hInFlight
    exact hInv.wait hName hInFlight (fun _ ht => ht) rfl rfl (by simp) hClear ⟨hOk, hCall _⟩
  | fast hPc hle =>
    simp only [hPc, iff_false] at hOk hInFlight
    exact hInv.wait hName hInFlight (fun _ ht => ht) rfl rfl (by simp) hClear ⟨hOk, hle⟩
  | read hPc hg =>
    simp only [hPc, iff_false] at hOk hInFlight
    have hSound := (hOk.2.step hRep (by omega)).1 _ hg
    exact hInv.wait hName hInFlight (fun _ ht => ht) rfl rfl (by simp) hClear ⟨hOk.1, hSound⟩
  | answer hPc hg =>
    simp only [hPc, iff_false] at hOk hInFlight
    have hPassed := (hOk.2.step hRep (by omega)).2 _ hg
    exact hInv.wait hName hInFlight (fun _ ht => ht) rfl rfl (by simp) hClear ⟨hOk.1, hPassed⟩
  | overflow hPc =>
    simp only [hPc, iff_false] at hInFlight
    exact hInv.wait hName hInFlight (fun _ ht => ht) rfl rfl (by simp [Abandoned]) hClear trivial
  | refuse hPc hFree hlt hRefuse =>
    simp only [hPc, iff_false] at hOk hInFlight
    unfold MultiProducer.refuse at hRefuse
    split at hRefuse <;> obtain ⟨rfl, rfl⟩ := Prod.mk.inj hRefuse
    · exact hInv.wait hName hInFlight (fun _ ht => ht) rfl rfl (by simp [Abandoned]) hClear
        hOk.1.inRange
    · exact hInv.wait hName hInFlight (fun _ ht => ht) rfl rfl (by simp [Abandoned]) hClear trivial
  | @accept op current nNext rear free clear hPc hFree hle hAdd =>
    simp only [hPc, iff_false] at hOk hInFlight
    obtain ⟨hTarget, hPassed⟩ := hOk
    have hFree' := R.freeSlots_eq_some hFree
    obtain ⟨-, rfl⟩ := addI64_eq_some.mp hAdd
    have hNext := hTarget.next
    have hBound : nNext ≤ current + free := by omega
    refine hInv.wait hName hInFlight (fun _ ht => ht) rfl rfl (by simp) (fun c hMem => ?_)
      ⟨hTarget, hBound⟩
    have : rear ≤ s.memory.consumerCursors c := hInv.consistent.inv.le_cursor hPassed hMem
    show current + free ≤ _
    omega
  | claim hPc hEq hClaim =>
    simp only [hPc, iff_false] at hOk hInFlight
    refine hInv.claim hName hOk.1 hEq hOk.2 ?_ hClaim
    ext t
    simp [MultiProducer.owed, hInFlight]
  | retry hPc hne hLoop =>
    simp only [hPc, iff_false] at hOk hInFlight
    exact hInv.loop hName hOk.1.inRange hInFlight hLoop
  | update hPc =>
    simp only [hPc] at hOk hInFlight
    exact hInv.carry hName (fun t => (hInFlight t).symm) rfl rfl (by simp [Abandoned])
      ⟨⟨hOk.1.inRange, hOk.1.le_size, hOk.1.claim⟩, hOk.2.1, fun t ht =>
        hOk.2.2 t ((hInFlight t).mpr ht)⟩
  | @unwindUpdate op event hPc =>
    simp only [hPc] at hOk hInFlight
    have hN := op.nI64_of_not_isBatch hOk.2.1
    refine hInv.unwind hName (fun t => (hInFlight t).trans ?_) hOk.2.2
    omega
  | @updatesEnd op iter k hPc hlt =>
    simp only [hPc] at hOk hInFlight
    obtain ⟨hHolds, hUntouched, -⟩ := hOk
    have hN := hHolds.inRange.nI64
    have hAt := PublishRange.new_at R ((s.producer.handles h).claimedSequence - op.nI64 + 1)
      (n := op.nI64) (by omega)
    refine hInv.carry hName (fun t => (hInFlight t).symm) rfl rfl (by simp)
      ⟨⟨hHolds.inRange, hHolds.le_size, hHolds.claim⟩, PublishRange.new_start ..,
        PublishRange.new_n .., 0, hAt, fun t ht => ?_⟩
    have hNot := hUntouched t ((hInFlight t).mpr ht)
    have hlo : (s.producer.handles h).claimedSequence - op.nI64 < t := ht.1
    rw [PublishRange.new_start]
    exact iff_of_false hNot (by omega)
  | @updatesNext op iter k hPc hle =>
    simp only [hPc] at hOk hInFlight
    obtain ⟨hHolds, hUntouched, hLast, hCurrent, hk⟩ := hOk
    have hN := hHolds.inRange.nI64
    refine hInv.carry hName (fun t => (hInFlight t).symm) rfl rfl (by simp [Abandoned])
      ⟨⟨hHolds.inRange, hHolds.le_size, hHolds.claim⟩,
        fun t ht => hUntouched t ((hInFlight t).mpr ht), hLast, ?_, by omega⟩
    show iter.current + 1 = _ + ((k + 1 : Nat) : Int)
    rw [hCurrent]
    push_cast
    ring
  | unwindEnd hPc hlt =>
    simp only [hPc] at hOk hInFlight
    refine hInv.unwind hName (fun t => (hInFlight t).trans ?_) hOk.2.1
    omega
  | unwindNext hPc hle =>
    simp only [hPc] at hOk hInFlight
    refine hInv.unwind hName (fun t => (hInFlight t).trans ?_) hOk.2.1
    omega
  | @publish op index mask hPc hMask =>
    simp only [hPc] at hOk hInFlight
    obtain ⟨hHolds, hBatch, hUntouched⟩ := hOk
    have hN := op.nI64_of_not_isBatch hBatch
    have hOne : ∀ t, (s.producer.handles h).InFlight t ↔
        t = (s.producer.handles h).claimedSequence := fun t => (hInFlight t).trans (by omega)
    refine hInv.flip hName (le_refl _) (publishMask_marks hMask) ?_ (List.nodup_singleton _) rfl rfl
      (by simp [Abandoned]) ?_ ?_ rfl trivial
    · intro t
      rw [List.mem_singleton]
      omega
    · intro t ht
      have hIn := (hOne t).mpr (List.mem_singleton.mp ht)
      exact ⟨hIn, hUntouched t hIn⟩
    · intro t
      rw [List.mem_singleton, ← hOne]
      exact ⟨fun ht => ht.1.elim, fun ht => (ht.2 ht.1.1).elim⟩
  | mask hPc hRange' =>
    obtain ⟨m, hC⟩ := (hInv.handle h).committing hPc
    simp only [hPc] at hInFlight
    obtain ⟨hStart, hN, hAt⟩ := hC.stands.step_mask h64 hRange'
    refine hInv.carry hName (fun t => (hInFlight t).symm) rfl rfl (by simp)
      ⟨⟨hC.holds.inRange, hC.holds.le_size, hC.holds.claim⟩, hStart.trans hC.start,
        hN.trans hC.length, m, hAt, fun t ht => ?_⟩
    rw [hStart]
    exact hC.flipped t ((hInFlight t).mpr ht)
  | @commit op r r' index mask hPc hRange' =>
    obtain ⟨m, hC⟩ := (hInv.handle h).committing hPc
    simp only [hPc] at hInFlight
    obtain ⟨hStart, hN, hlt, hMarks, hAt⟩ := hC.stands.step_commit h64 hRange'
    have hUpper : r.start + r.i < r.start + r.n := by omega
    have hBlock : r.start + m ≤ r.start + r.i := Int.add_le_add_left hC.stands.le_i _
    have hMem := fun t => hC.mem_committed hMarks hUpper (t := t)
    have hFlips : flips (tr ++ [.published h (r.committed R index mask)]) =
        flips tr ++ r.committed R index mask := by simp [flips, Event.sequences]
    refine hInv.flip hName hBlock hMarks hMem (r.nodup_committed index mask)
      (by simp [flips, Event.sequences]) rfl (by simp [Abandoned])
      (fun t => hC.owed hMarks hUpper) ?_ rfl
      ⟨⟨hC.holds.inRange, hC.holds.le_size, ?_⟩, hStart.trans hC.start, hN.trans hC.length,
      r.i + 1, hAt, ?_⟩
    · intro t
      rw [hFlips]
      simp only [MultiProducer.owed, Set.mem_ofPred_eq, List.mem_append, not_or, hInFlight t]
      exact and_assoc.symm
    · rw [claims_append]
      exact List.mem_append_left _ hC.holds.claim
    · intro t ht
      -- flipped before, or just now
      have hIn := (hInFlight t).mpr ht
      have hRange := hC.inFlight.mp hIn
      rw [hFlips, List.mem_append, hC.flipped t hIn, hMem, hStart]
      omega
  | @commitEnd op r index mask hPc hRange' =>
    obtain ⟨m, hC⟩ := (hInv.handle h).committing hPc
    obtain ⟨hlt, hMarks⟩ := hC.stands.step_commitEnd h64 hRange'
    have hUpper : r.start + r.n - 1 < r.start + r.n := by omega
    have hMem := fun t => hC.mem_committed hMarks hUpper (t := t)
    refine hInv.flip hName (by omega) hMarks hMem (r.nodup_committed index mask)
      (by simp [flips, Event.sequences]) rfl (by simp [Abandoned])
      (fun t => hC.owed hMarks hUpper) (fun t => ?_) rfl trivial
    -- nothing is left of the claim
    refine ⟨fun ht => ht.1.elim, fun ht => (ht.2 ((hMem t).mpr ?_)).elim⟩
    have hIn := hC.inFlight.mp ht.1.1
    have hNew := (hC.flipped t ht.1.1).not.mp ht.1.2
    omega
  | rangeEnd hPc hRange' =>
    obtain ⟨m, hC⟩ := (hInv.handle h).committing hPc
    have hEnd := hC.stands.step_rangeEnd h64 hRange'
    refine hInv.quiet hName ⟨_, _, rfl⟩ rfl rfl (by simp [Abandoned]) ?_ hClear trivial
    ext t
    refine ⟨fun ht => ht.1.elim, fun ht => (ht.2 ((hC.flipped t ht.1).mpr ?_)).elim⟩
    have hIn := hC.inFlight.mp ht.1
    omega
  | shutdownCurrent hPc =>
    simp only [hPc, iff_false] at hInFlight
    exact hInv.wait hName hInFlight (fun _ ht => ht) rfl rfl (by simp) hClear trivial
  | shutdownStore hPc =>
    simp only [hPc, iff_false] at hInFlight
    refine hInv.quiet hName ⟨_, _, rfl⟩ rfl rfl (by simp [Abandoned]) ?_ hClear trivial
    ext t
    exact ⟨fun ht => ht.1.elim, fun ht => (hInFlight t ht.1).elim⟩
  | join hPc _ =>
    simp only [hPc, iff_false] at hInFlight
    exact hInv.wait hName hInFlight (fun _ ht => ht) rfl rfl (by simp) hClear trivial
  | joined hPc =>
    simp only [hPc, iff_false] at hInFlight
    exact hInv.wait hName hInFlight (fun _ ht => ht) rfl rfl (by simp) hClear trivial

/-- A step of a consumer keeps the invariant. -/
theorem consumer (hInv : MultiInv R T tr s) (hWired : Wired T .multiProducer w) {c : Nat}
    {spec : ConsumerSpec} {pc : ConsumerPc} (hSpec : w.consumers[c]? = some spec)
    (hStep : ConsumerStep R spec.dependentBarrier c s.memory (s.consumers c) memory pc es) :
    MultiInv R T (tr ++ es)
      { s with memory := memory, consumers := Function.update s.consumers c pc } := by
  obtain ⟨hClaims, hFlips, hNone⟩ := history_ofConsumer hStep.ofConsumer
  have hFlips' : flips (tr ++ es) = flips tr := by rw [flips_append, hFlips, List.append_nil]
  have hPublished : publishedBy (tr ++ es) = publishedBy tr := by
    ext t
    rw [mem_publishedBy, mem_publishedBy, hFlips']
  have hLost : {t | Abandoned (tr ++ es) t} = {t | Abandoned tr t} := by
    ext t
    simp [hNone]
  have hCursor : memory.cursor = s.memory.cursor := by
    rcases hStep.memory with rfl | ⟨v, rfl⟩ <;> rfl
  have hLater :=
    (hInv.consistent.consumer_steps (hWired.mem hSpec) (hWired.dependentBarrier hSpec) hStep).1.later
  refine ⟨?_, ?_, ?_, ?_, ?_, hInv.absent⟩
  · show System.Consistent R T _ _ memory.cursor _
    rw [hPublished, hCursor]
    exact hInv.consistent.consumer hWired hSpec hStep
  · show Ledger _ memory.cursor _ _
    rw [hFlips', hLost, hCursor]
    exact hInv.ledger
  · show Tiled _ memory.cursor
    rw [claims_append, hClaims, List.append_nil, hCursor]
    exact hInv.tiled
  · intro h c' hMem
    have := hInv.clear h c' hMem
    have : s.memory.consumerCursors c' ≤ memory.consumerCursors c' := hLater.cursor c' hMem
    show (s.producer.handles h).sequenceClearOfConsumers ≤ memory.consumerCursors c' + R.size
    omega
  · intro h
    show MultiProducer.Ok R T (System.pipeline _ memory.cursor _) _ h _
    rw [hPublished, hCursor]
    refine (hInv.handle h).later hLater (le_refl _) ?_ fun t _ => by rw [hFlips']
    rw [claims_append]
    exact List.subset_append_left _ _

/-- Cloning or dropping an idle handle keeps the invariant. -/
theorem lifecycle (hInv : MultiInv R T tr s) {ps : SharedProducers E}
    (hHandles : ps.handles = Function.update s.producer.handles h p')
    (hName : h < ps.nextHandle) (hNext : s.producer.nextHandle ≤ ps.nextHandle)
    (hOut : ∀ t, ¬ (s.producer.handles h).InFlight t) (hOut' : ∀ t, ¬ p'.InFlight t)
    (hClear : ∀ c ∈ T.members,
      p'.sequenceClearOfConsumers ≤ s.memory.consumerCursors c + R.size)
    (hOk : p'.Ok R T (s.pipeline s.memory.cursor (publishedBy tr)) tr h) :
    MultiInv R T (tr ++ []) { s with producer := ps } := by
  rw [List.append_nil]
  refine ⟨?_, ?_, hInv.tiled, ?_, ?_, ?_⟩
  · exact hInv.consistent.producer rfl rfl .refl hInv.consistent.represents
      hInv.consistent.claimed_le
  · have hSame : (fun h' => (ps.handles h').owed (flips tr)) =
        fun h' => (s.producer.handles h').owed (flips tr) := by
      funext h'
      rw [hHandles]
      rcases eq_or_ne h' h with rfl | hne
      · ext t
        simp [MultiProducer.owed, hOut, hOut']
      · rw [Function.update_of_ne hne]
    show Ledger _ _ (fun h' => (ps.handles h').owed (flips tr)) _
    rw [hSame]
    exact hInv.ledger
  · intro h' c hMem
    show (ps.handles h').sequenceClearOfConsumers ≤ _
    rw [hHandles]
    rcases eq_or_ne h' h with rfl | hne
    · rw [Function.update_self]
      exact hClear c hMem
    · rw [Function.update_of_ne hne]
      exact hInv.clear h' c hMem
  · intro h'
    show (ps.handles h').Ok R T _ tr h'
    rw [hHandles]
    rcases eq_or_ne h' h with rfl | hne
    · rw [Function.update_self]
      exact hOk
    · rw [Function.update_of_ne hne]
      exact hInv.handle h'
  · intro h' hge
    show ps.handles h' = .none
    have hge' : ps.nextHandle ≤ h' := hge
    rw [hHandles, Function.update_of_ne (by omega)]
    exact hInv.absent h' (by omega)

/-- **Every step keeps the invariant.** -/
theorem step (hInv : MultiInv R T tr s) (hWired : Wired T .multiProducer w)
    {act : Act (MultiAct E)} {s' : MultiSystem E} (hRange : MultiAct.InRange act)
    (hs : MultiSystem.step R w s act = some (s', es)) : MultiInv R T (tr ++ es) s' := by
  cases multiStep_cases hs with
  | consumer hSpec hStep => exact hInv.consumer hWired hSpec hStep
  | @handle h act memory p es hStep =>
    refine hInv.handle_step hWired (fun op hAct => ?_) hStep
    subst hAct
    exact hRange
  | @clone h hPc _ =>
    have hAbsent := hInv.absent s.producer.nextHandle (le_refl _)
    refine hInv.lifecycle rfl (Nat.lt_succ_self _) (Nat.le_succ _) ?_ (fun _ ht => ht) ?_ trivial
    · intro t
      rw [hAbsent]
      exact fun ht => ht
    · intro c hMem
      have : -1 ≤ s.memory.consumerCursors c := hInv.consistent.inv.cursor_ge c hMem
      have := R.pos
      show (0 : Int) ≤ _
      omega
  | @dropLast h hPc _ =>
    refine hInv.lifecycle rfl (hInv.name_lt (by rw [hPc]; simp)) (le_refl _) (fun t => ?_)
      (fun _ ht => ht) (hInv.clear h) trivial
    simp [MultiProducer.InFlight, hPc]
  | @drop h hPc _ =>
    refine hInv.lifecycle rfl (hInv.name_lt (by rw [hPc]; simp)) (le_refl _) (fun t => ?_)
      (fun _ ht => ht) (hInv.clear h) trivial
    simp [MultiProducer.InFlight, hPc]

end MultiInv

/-- **The invariant holds in every reachable state.** -/
theorem MultiRun.inv {R : MultiRingSize} (hWired : Wired T .multiProducer w)
    {tr : List (Event E)} {s : MultiSystem E} (h : MultiRun R w factory tr s) :
    MultiInv R.toRingSize T tr s :=
  h.induct (MultiInv.init R.dvd_size hWired) fun _ hInv hRange hs => hInv.step hWired hRange hs

/-- **The invariant rule on top of the invariant**: both ends of a step satisfy it. -/
theorem MultiRun.rule {R : MultiRingSize} (hWired : Wired T .multiProducer w)
    {P : List (Event E) → MultiSystem E → Prop}
    (hInit : P [] (MultiSystem.init R.toRingSize w factory))
    (hStep : ∀ {tr s act s' es}, MultiRun R w factory tr s → MultiInv R.toRingSize T tr s →
      MultiInv R.toRingSize T (tr ++ es) s' → P tr s →
      MultiSystemStep R.toRingSize w s act s' es → P (tr ++ es) s')
    {tr : List (Event E)} {s : MultiSystem E} (h : MultiRun R w factory tr s) : P tr s :=
  Run.induct hInit (fun hRun hP hRange hs =>
    have hInv := MultiRun.inv hWired hRun
    hStep hRun hInv (hInv.step hWired hRange hs) hP (multiStep_cases hs)) h

end Calvera
