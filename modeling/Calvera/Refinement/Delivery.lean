import Calvera.Lib.InPlace
import Calvera.Refinement.Multi

/-!
# Refinement — what consumers observe

The slots hold the values of the last round of claims: a claimed slot holds the
value of its sequence once its closure has changed it, and the value one round
before until then (`Contents`). A consumer reads published slots only, so what
it observes is the stream of values from sequence `0` on, up to its next
sequence (`MultiRun.observed`).

All this is about runs whose closures return.
-/

namespace Calvera

open Calvera.Lib Calvera.Protocol

variable {E : Type} {R : RingSize} {T : Topology Nat} {w : Wiring} {factory : Nat → E}

-- ---------------------------------------------------------------------------
-- Streams
-- ---------------------------------------------------------------------------

/-- The values of the sequences from `0` up to but not including `next`. -/
def stream (value : Int → E) (next : Int) : List (Int × E) :=
  (List.range next.toNat).map fun i : Nat => ((i : Int), value i)

theorem stream_succ {value : Int → E} {next : Int} (h : 0 ≤ next) :
    stream value (next + 1) = stream value next ++ [(next, value next)] := by
  obtain ⟨n, rfl⟩ := Int.eq_ofNat_of_zero_le h
  have hSucc : ((n : Int) + 1).toNat = n + 1 := by omega
  simp only [stream, hSucc, Int.toNat_natCast, List.range_succ, List.map_append, List.map_singleton]

/-- The stream lists the sequences in order, with their values. -/
theorem stream_eq (value : Int → E) (next : Int) :
    stream value next = (seqRange 0 (next - 1)).map fun t => (t, value t) := by
  have hLength : next - 1 - 0 + 1 = next := by omega
  rw [stream, seqRange, hLength, List.map_map]
  refine List.map_congr_left fun i _ => ?_
  simp

theorem stream_congr {value value' : Int → E} {next : Int}
    (h : ∀ t, 0 ≤ t → t < next → value t = value' t) : stream value next = stream value' next := by
  refine List.map_congr_left fun i hi => ?_
  have := List.mem_range.mp hi
  rw [h i (by omega) (by omega)]

/-- Of two streams of the same values one is a prefix of the other. -/
theorem stream_le (value : Int → E) {next next' : Int} (h : next ≤ next') :
    stream value next <+: stream value next' := by
  refine List.IsPrefix.map _ ?_
  rw [List.prefix_iff_eq_take, List.take_range, List.length_range]
  congr 1
  omega

-- ---------------------------------------------------------------------------
-- Consumers
-- ---------------------------------------------------------------------------

/-- Consumer `c` drops its guards only when they are iterated to the end. -/
def Exhausts (c : Nat) (tr : List (Event E)) : Prop :=
  ∀ q v, Event.guardDropped c q v ∈ tr → v < q

theorem Exhausts.append {c : Nat} {tr es : List (Event E)} (h : Exhausts c (tr ++ es)) :
    Exhausts c tr ∧ Exhausts c es :=
  ⟨fun q v hMem => h q v (List.mem_append_left _ hMem),
    fun q v hMem => h q v (List.mem_append_right _ hMem)⟩

/-- **A step of a consumer extends what it observed to its next sequence**, if
the slots it was granted hold the values. -/
theorem ConsumerStep.observed {b : Barrier} {c : Nat} {m m' : Memory E} {pc pc' : ConsumerPc}
    {es : List (Event E)} (hStep : ConsumerStep R b c m pc m' pc' es) {producerBarrier : Barrier}
    {a : State Nat} (hOk : pc.Ok R T producerBarrier a c) (hCursor : a.cursor c = m.consumerCursors c)
    (hGe : -1 ≤ m.consumerCursors c) (hExhausts : Exhausts c es) {value : Int → E}
    (hRead : ∀ t, m.consumerCursors c < t → t ≤ pc.granted (m.consumerCursors c) →
      m.slots (R.slot t) = value t) :
    stream value (pc.nextSequence (m.consumerCursors c)) ++ Calvera.observed c es =
      stream value (pc'.nextSequence (m'.consumerCursors c)) := by
  cases hStep with
  | @handle q v hle =>
    obtain ⟨hlo, -⟩ := hOk
    rw [hCursor] at hlo
    have hValue := hRead q hlo hle
    simp only [ConsumerPc.nextSequence]
    rw [stream_succ (by omega), ← hValue]
    simp [Calvera.observed, Event.observed?]
  | @nextSome q v hle =>
    obtain ⟨hlo, -⟩ := hOk
    rw [hCursor] at hlo
    have hValue := hRead q hlo hle
    simp only [ConsumerPc.nextSequence]
    rw [stream_succ (by omega), ← hValue]
    simp [Calvera.observed, Event.observed?]
  | @dropGuard q v =>
    -- the guard was iterated to its end, so the cursor is where it stands
    have hlt := hExhausts q v (List.mem_singleton_self _)
    obtain ⟨-, hhi⟩ := hOk
    obtain rfl : q = v + 1 := by omega
    simp [ConsumerPc.nextSequence, Calvera.observed, Event.observed?, Memory.storeCursor]
  | store hlt =>
    simp [ConsumerPc.nextSequence, Calvera.observed, Memory.storeCursor]
  | waitHit hg hle =>
    obtain ⟨rfl, -⟩ := hOk
    simp [ConsumerPc.nextSequence, Calvera.observed, hCursor]
  | pollHit hg hle =>
    obtain ⟨rfl, -⟩ := hOk
    simp [ConsumerPc.nextSequence, Calvera.observed, hCursor]
  | _ => simp [ConsumerPc.nextSequence, Calvera.observed, Event.observed?]

/-- **A step of the system extends what each consumer observed to its next
sequence**, if the slots it was granted hold the values. -/
theorem SystemMove.observed {P A : Type} {s s' : System P E} {act : Act A} {es : List (Event E)}
    (hMove : SystemMove R w s act s' es) {producerBarrier : Barrier} {claimed : Int}
    {published : Set Int} (hConsistent : s.Consistent R T producerBarrier claimed published)
    {c : Nat} (hMem : c ∈ T.members) (hExhausts : Exhausts c es) {value : Int → E}
    (hRead : ∀ t, s.memory.consumerCursors c < t →
      t ≤ (s.consumers c).granted (s.memory.consumerCursors c) →
        s.memory.slots (R.slot t) = value t) :
    stream value (s.nextSequence c) ++ Calvera.observed c es = stream value (s'.nextSequence c) := by
  cases hMove with
  | @consumer c' act spec memory pc es hSpec hStep =>
    rcases eq_or_ne c' c with rfl | hne
    · have hNew := hStep.observed (hConsistent.consumers c' hMem) rfl
        (hConsistent.inv.cursor_ge c' hMem) hExhausts hRead
      simpa [System.nextSequence] using hNew
    · rw [hStep.observed_ne hne, List.append_nil]
      simp [System.nextSequence, hne.symm, hStep.cursor_ne hne.symm]
  | producer hConsumers hCursors hOf =>
    rw [observed_ofProducer hOf, List.append_nil, System.nextSequence, System.nextSequence,
      hConsumers, hCursors]

/-- The observed stream stays a stream of values when more is claimed meanwhile. -/
theorem SystemMove.observed_more {P A : Type} {s s' : System P E} {act : Act A}
    {tr es : List (Event E)} (hMove : SystemMove R w s act s' es) {producerBarrier : Barrier}
    {claimed : Int} {published : Set Int}
    (hConsistent : s.Consistent R T producerBarrier claimed published) {c : Nat}
    (hMem : c ∈ T.members) (hExhausts : Exhausts c es) {value value' : Int → E}
    (hOld : Calvera.observed c tr = stream value (s.nextSequence c))
    (hSame : ∀ t ≤ claimed, value t = value' t)
    (hRead : ∀ t, s.memory.consumerCursors c < t →
      t ≤ (s.consumers c).granted (s.memory.consumerCursors c) →
        s.memory.slots (R.slot t) = value t) :
    Calvera.observed c (tr ++ es) = stream value' (s'.nextSequence c) := by
  have hNext := hConsistent.next_bounds hMem
  have hCursor : s.memory.consumerCursors c ≤ claimed := hConsistent.inv.cursor_le_claimed hMem
  have hGranted : (s.consumers c).granted (s.memory.consumerCursors c) ≤ claimed :=
    hConsistent.inv.granted_le_claimed hMem
  rw [observed_append, hOld, stream_congr fun t _ ht => hSame t (by omega)]
  exact hMove.observed hConsistent hMem hExhausts fun t hlo hhi =>
    (hRead t hlo hhi).trans (hSame t (hhi.trans hGranted))

/-- A managed consumer drops no guards, because it has none. -/
theorem SystemMove.managed {P A : Type} {s s' : System P E} {act : Act A} {tr es : List (Event E)}
    (hMove : SystemMove R w s act s' es) {c : Nat}
    (h : (s.consumers c).ofPoller = false ∧ Exhausts c tr) :
    (s'.consumers c).ofPoller = false ∧ Exhausts c (tr ++ es) := by
  obtain ⟨hManaged, hExhausts⟩ := h
  cases hMove with
  | @consumer c' act spec memory pc es hSpec hStep =>
    rcases eq_or_ne c' c with rfl | hne
    · refine ⟨by simpa using hStep.ofPoller.trans hManaged, fun q v hMem => ?_⟩
      rcases List.mem_append.mp hMem with hOld | hNew
      · exact hExhausts q v hOld
      · obtain ⟨-, hPoller⟩ := hStep.dropped hNew
        rw [hManaged] at hPoller
        cases hPoller
    · refine ⟨by simpa [hne.symm] using hManaged, fun q v hMem => ?_⟩
      rcases List.mem_append.mp hMem with hOld | hNew
      · exact hExhausts q v hOld
      · exact (hne (hStep.dropped hNew).1.symm).elim
  | producer hConsumers hCursors hOf =>
    refine ⟨hConsumers ▸ hManaged, fun q v hMem => ?_⟩
    rcases List.mem_append.mp hMem with hOld | hNew
    · exact hExhausts q v hOld
    · exact (hOf _ hNew trivial).elim

theorem System.init_managed {P : Type} {producer : P} {c : Nat} {spec : ConsumerSpec}
    (hSpec : w.consumers[c]? = some spec) (hKind : spec.kind ≠ .poller) :
    ((System.init w factory producer).consumers c).ofPoller = false ∧
      Exhausts c ([] : List (Event E)) := by
  refine ⟨?_, fun q v hMem => (List.not_mem_nil hMem).elim⟩
  simp only [System.init, hSpec, spec.start_ofPoller]
  simpa using hKind

-- ---------------------------------------------------------------------------
-- Slots
-- ---------------------------------------------------------------------------

/-- The closure of the handle has still to change the event at `t`. -/
def MultiProducer.Unwritten (p : MultiProducer E) (t : Int) : Prop :=
  match p.pc with
  | .update _ => t = p.claimedSequence
  | .updates _ iter _ => iter.current ≤ t ∧ t ≤ iter.last
  | _ => False

/-- What the slots hold. -/
structure Contents (R : RingSize) (factory : Nat → E) (tr : List (Event E)) (s : MultiSystem E) :
    Prop where
  written : ∀ t, s.memory.cursor - R.size < t → t ≤ s.memory.cursor →
    (∀ h, ¬ (s.producer.handles h).Unwritten t) →
      s.memory.slots (R.slot t) = valueAt R factory (claims tr) t
  unwritten : ∀ h t, (s.producer.handles h).Unwritten t →
    s.memory.slots (R.slot t) = valueAt R factory (claims tr) (t - R.size)

/-- What is claimed and not flipped is ahead of every consumer. -/
theorem MultiInv.owed_ahead {tr : List (Event E)} {s : MultiSystem E} (hInv : MultiInv R T tr s)
    {h : Nat} {t : Int} (ht : t ∈ (s.producer.handles h).owed (flips tr)) {c : Nat}
    (hMem : c ∈ T.members) : s.memory.consumerCursors c < t := by
  have hAhead : (s.pipeline s.memory.cursor (publishedBy tr)).granted c < t :=
    hInv.consistent.inv.granted_lt hMem (hInv.owed_fresh ht)
  have hCursor : s.memory.consumerCursors c ≤ _ := hInv.consistent.inv.cursor_le_granted c hMem
  omega

/-- It lies within the last round. -/
theorem MultiInv.owed_window {tr : List (Event E)} {s : MultiSystem E} (hInv : MultiInv R T tr s)
    {h : Nat} {t : Int} (ht : t ∈ (s.producer.handles h).owed (flips tr)) :
    s.memory.cursor - R.size < t ∧ t ≤ s.memory.cursor := by
  obtain ⟨c, hMem⟩ := T.nonempty
  have := hInv.owed_ahead ht hMem
  have := hInv.cursor_le hMem
  exact ⟨by omega, (hInv.ledger.owed_bounds h t ht).2⟩

/-- What a closure has still to change is owed. -/
theorem MultiInv.unwritten_owed {tr : List (Event E)} {s : MultiSystem E} (hInv : MultiInv R T tr s)
    {h : Nat} {t : Int} (ht : (s.producer.handles h).Unwritten t) :
    t ∈ (s.producer.handles h).owed (flips tr) := by
  have hOk := hInv.handle h
  have hIn : (s.producer.handles h).InFlight t ∧ (s.producer.handles h).Untouched (flips tr) := by
    unfold MultiProducer.Unwritten at ht
    unfold MultiProducer.Ok at hOk
    unfold MultiProducer.InFlight
    split at ht <;> rename_i hPc
    · simp only [hPc] at hOk ⊢
      obtain ⟨-, hBatch, hUntouched⟩ := hOk
      have hN := Op.nI64_of_not_isBatch hBatch
      exact ⟨by omega, hUntouched⟩
    · simp only [hPc] at hOk ⊢
      obtain ⟨-, hUntouched, hLast, hCurrent, -⟩ := hOk
      exact ⟨by omega, hUntouched⟩
    · exact ht.elim
  exact ⟨hIn.1, hIn.2 t hIn.1⟩

/-- A handle that has to change the same events as before changes nothing for the others. -/
theorem SharedProducers.setHandle_unwritten {ps : SharedProducers E} {h : Nat}
    {p' : MultiProducer E} (hSame : ∀ t, p'.Unwritten t ↔ (ps.handles h).Unwritten t) (h' : Nat)
    (t : Int) : ((ps.setHandle h p').handles h').Unwritten t ↔ (ps.handles h').Unwritten t := by
  rw [setHandle_handles]
  split
  · rename_i hEq
    rw [hSame, hEq]
  · exact Iff.rfl

/-- The sequences that closures have still to change. -/
def SharedProducers.unwritten (ps : SharedProducers E) : Set Int :=
  {t | ∃ h, (ps.handles h).Unwritten t}

namespace Contents

variable {tr es : List (Event E)} {s : MultiSystem E} {memory : Memory E} {p' : MultiProducer E}
  {h : Nat}

theorem init : Contents R factory [] (MultiSystem.init R w factory) where
  written t _ ht _ := by
    have : t ≤ -1 := ht
    rw [valueAt_neg (by omega)]
    rfl
  unwritten h t ht := by
    have hNone : (MultiSystem.init R w factory).producer.handles h =
        if h = 0 then .new R else .none := by
      simp [MultiSystem.init, System.init, SharedProducers.new, Function.update_apply]
    rw [hNone] at ht
    split at ht <;> exact ht.elim

/-- A step that neither claims nor writes. -/
theorem stay (hC : Contents R factory tr s) {ps : SharedProducers E}
    (hSlots : memory.slots = s.memory.slots) (hCursor : memory.cursor = s.memory.cursor)
    (hClaims : claims es = [])
    (hSame : ∀ h t, (ps.handles h).Unwritten t ↔ (s.producer.handles h).Unwritten t) :
    Contents R factory (tr ++ es) { s with memory := memory, producer := ps } := by
  have hValues : claims (tr ++ es) = claims tr := by rw [claims_append, hClaims, List.append_nil]
  refine ⟨?_, ?_⟩
  · intro t hlo hhi hNone
    show memory.slots _ = _
    rw [hValues, hSlots]
    exact hC.written t (hCursor ▸ hlo) (hCursor ▸ hhi) fun h ht => hNone h ((hSame h t).mpr ht)
  · intro h t ht
    show memory.slots _ = _
    rw [hValues, hSlots]
    exact hC.unwritten h t ((hSame h t).mp ht)

/-- The slots are those of a ring that is updated in place. -/
theorem inPlace (hC : Contents R factory tr s) (hInv : MultiInv R T tr s) :
    InPlace R.size s.memory.slots s.memory.cursor s.producer.unwritten
      (valueAt R factory (claims tr)) where
  window t ht := by
    obtain ⟨h, ht⟩ := ht
    exact hInv.owed_window (hInv.unwritten_owed ht)
  written t hlo hhi hNot := by
    rw [← R.slot_eq]
    exact hC.written t hlo hhi fun h ht => hNot ⟨h, ht⟩
  before t ht := by
    obtain ⟨h, ht⟩ := ht
    rw [← R.slot_eq]
    exact hC.unwritten h t ht

theorem of_inPlace (h : InPlace R.size s.memory.slots s.memory.cursor s.producer.unwritten
    (valueAt R factory (claims tr))) : Contents R factory tr s where
  written t hlo hhi hNone := by
    rw [R.slot_eq]
    apply h.written t hlo hhi
    rintro ⟨h', ht⟩
    exact hNone h' ht
  unwritten h' t ht := by
    rw [R.slot_eq]
    exact h.before t ⟨h', ht⟩

/-- The closure changes the event at `u`. -/
theorem write (hC : Contents R factory tr s) (hInv : MultiInv R T tr s) {u : Int} {f : E → E}
    (hu : (s.producer.handles h).Unwritten u)
    (hValue : valueAt R factory (claims tr) u = f (valueAt R factory (claims tr) (u - R.size)))
    (hClaims : claims es = [])
    (hRest : ∀ t, p'.Unwritten t ↔ (s.producer.handles h).Unwritten t ∧ t ≠ u) :
    Contents R factory (tr ++ es)
      { s with
        memory := s.memory.updateSlot (R.slot u) f
        producer := s.producer.setHandle h p' } := by
  have hAll : ∀ h' t, ((s.producer.setHandle h p').handles h').Unwritten t ↔
      (s.producer.handles h').Unwritten t ∧ t ≠ u := by
    intro h' t
    rw [SharedProducers.setHandle_handles]
    split
    · rename_i hEq
      rw [hRest, hEq]
    · -- a sequence is owed by one handle only
      rename_i hne
      refine ⟨fun ht => ⟨ht, fun hEq => hne ?_⟩, And.left⟩
      exact hInv.ledger.owed_unique h' h u (hInv.unwritten_owed (hEq ▸ ht))
        (hInv.unwritten_owed hu)
  have hUnwritten : (s.producer.setHandle h p').unwritten = s.producer.unwritten \ {u} := by
    ext t
    simp [SharedProducers.unwritten, hAll]
  have hWritten := (hC.inPlace hInv).write R.pos ⟨h, hu⟩ hValue
  rw [← R.slot_eq, ← hUnwritten] at hWritten
  refine of_inPlace ?_
  rw [claims_append, hClaims, List.append_nil]
  exact hWritten

/-- What is newly claimed still holds the values of the round before. -/
theorem claim (hC : Contents R factory tr s) (hInv : MultiInv R T tr s) {upper : Int}
    (hUpper : s.memory.cursor ≤ upper)
    (hRoom : ∀ c ∈ T.members, upper ≤ s.memory.consumerCursors c + R.size)
    (hOld : ∀ t, ¬ (s.producer.handles h).Unwritten t)
    (hNew : ∀ t, p'.Unwritten t ↔ s.memory.cursor < t ∧ t ≤ upper) :
    Contents R factory (tr ++ es)
      { s with memory := s.memory.setCursor upper, producer := s.producer.setHandle h p' } := by
  have hAll : ∀ h' t, ((s.producer.setHandle h p').handles h').Unwritten t ↔
      (s.producer.handles h').Unwritten t ∨ (h' = h ∧ s.memory.cursor < t ∧ t ≤ upper) := by
    intro h' t
    rw [SharedProducers.setHandle_handles]
    split
    · rename_i hEq
      simp [hEq, hOld, hNew]
    · rename_i hne
      simp [hne]
  have hUnwritten : (s.producer.setHandle h p').unwritten =
      s.producer.unwritten ∪ {t | s.memory.cursor < t ∧ t ≤ upper} := by
    ext t
    simp [SharedProducers.unwritten, hAll, exists_or]
  have hValues : ∀ t ≤ s.memory.cursor,
      valueAt R factory (claims tr) t = valueAt R factory (claims (tr ++ es)) t := by
    intro t ht
    rw [claims_append, hInv.tiled.valueAt_append _ ht]
  obtain ⟨c, hMem⟩ := T.nonempty
  have hLimit := hRoom c hMem
  have hCursor : s.memory.consumerCursors c ≤ s.memory.cursor :=
    hInv.consistent.inv.cursor_le_claimed hMem
  -- one round before, everything is published and thus written
  have hDone : ∀ t ∈ s.producer.unwritten, upper - R.size < t := by
    intro t ht
    obtain ⟨h', ht⟩ := ht
    have := hInv.owed_ahead (hInv.unwritten_owed ht) hMem
    omega
  have hClaimed := ((hC.inPlace hInv).congr hValues).claim hUpper (by omega) hDone
  rw [← hUnwritten] at hClaimed
  exact of_inPlace hClaimed

end Contents

-- ---------------------------------------------------------------------------
-- Runs
-- ---------------------------------------------------------------------------

/-- The claim in hand gives the `k`-th event of the call its value. -/
theorem Holds.valueAt_eq {tr : List (Event E)} {h : Nat} {p : MultiProducer E} {op : Op E}
    (hHolds : Holds R tr h p op) {hi : Int} (hTiled : Tiled (claims tr) hi) {t : Int} {k : Nat}
    (ht : t = p.claimedSequence - op.nI64 + 1 + k) (hLe : t ≤ p.claimedSequence) :
    valueAt R factory (claims tr) t = op.update k (valueAt R factory (claims tr) (t - R.size)) := by
  have hCovers :
      Claim.Covers ⟨h, p.claimedSequence - op.nI64 + 1, p.claimedSequence, op.update⟩ t := by
    simp only [Claim.Covers]
    omega
  rw [hTiled.valueAt_eq hHolds.claim hCovers]
  have hIndex : (t - (p.claimedSequence - op.nI64 + 1)).toNat = k := by omega
  rw [hIndex]

/-- Nothing is left to change when `next_sequences` is entered. -/
theorem MultiProducer.loop_unwritten {p p' : MultiProducer E} {h : Nat} {op : Op E} {current : Int}
    {es : List (Event E)} (hs : p.loop h op current = (p', es)) :
    claims es = [] ∧ ∀ t, ¬ p'.Unwritten t := by
  rcases loop_cases hs with ⟨rfl, rfl⟩ | ⟨rfl, rfl, -⟩ <;> exact ⟨rfl, fun _ ht => ht⟩

/-- A step of a handle whose closure does not unwind keeps the contents. -/
theorem MultiInv.contents_step {tr es : List (Event E)} {s : MultiSystem E} {memory : Memory E}
    {p' : MultiProducer E} {h : Nat} (hInv : MultiInv R T tr s) (hC : Contents R factory tr s)
    {barrier : Barrier} {joins : List Nat} {exited : Nat → Bool} {act : HandleAct E}
    (hReturn : NoUnwind es)
    (hStep : MultiStep R barrier joins exited h s.memory (s.producer.handles h) act memory p' es) :
    Contents R factory (tr ++ es)
      { s with memory := memory, producer := s.producer.setHandle h p' } := by
  have hOk := hInv.handle h
  have hNone : ∀ {pc : MultiPc E}, (s.producer.handles h).pc = pc →
      (∀ op, pc ≠ .update op) → (∀ op iter k, pc ≠ .updates op iter k) →
      ∀ t, ¬ (s.producer.handles h).Unwritten t := by
    intro pc hPc hNot hNot' t ht
    unfold MultiProducer.Unwritten at ht
    split at ht <;> rename_i hPc'
    · exact hNot _ (hPc.symm.trans hPc')
    · exact hNot' _ _ _ (hPc.symm.trans hPc')
    · exact ht
  unfold MultiProducer.Ok at hOk
  cases hStep with
  | claim hPc hEq hClaim =>
    simp only [hPc] at hOk
    obtain ⟨hTarget, hle⟩ := hOk
    obtain ⟨rfl, rfl⟩ := Prod.mk.inj hClaim
    have hNext := hTarget.next
    have hN := hTarget.inRange.nI64
    refine hC.claim hInv (by omega) (fun c hMem => hle.trans (hInv.clear h c hMem))
      (hNone hPc (by simp) (by simp)) fun t => ?_
    cases hBatch : Op.isBatch _ with
    | true =>
      simp only [MultiProducer.Unwritten, MutBatchIter.new, if_true]
      omega
    | false =>
      have := Op.nI64_of_not_isBatch hBatch
      simp only [MultiProducer.Unwritten, Bool.false_eq_true, if_false]
      omega
  | @update op hPc =>
    simp only [hPc] at hOk
    obtain ⟨hHolds, hBatch, -⟩ := hOk
    have hN := op.nI64_of_not_isBatch hBatch
    have hUnwritten : ∀ t, (s.producer.handles h).Unwritten t ↔
        t = (s.producer.handles h).claimedSequence := by simp [MultiProducer.Unwritten, hPc]
    refine hC.write hInv ((hUnwritten _).mpr rfl)
      (hHolds.valueAt_eq hInv.tiled (by omega) (le_refl _)) rfl fun t => ?_
    rw [hUnwritten]
    simp [MultiProducer.Unwritten]
  | @updatesNext op iter k hPc hle =>
    simp only [hPc] at hOk
    obtain ⟨hHolds, -, hLast, hCurrent, -⟩ := hOk
    have hUnwritten : ∀ t, (s.producer.handles h).Unwritten t ↔
        iter.current ≤ t ∧ t ≤ iter.last := by simp [MultiProducer.Unwritten, hPc]
    refine hC.write hInv ((hUnwritten _).mpr ⟨le_refl _, hle⟩)
      (hHolds.valueAt_eq hInv.tiled hCurrent (by omega)) rfl fun t => ?_
    rw [hUnwritten]
    show iter.current + 1 ≤ t ∧ t ≤ iter.last ↔ _
    omega
  | updatesEnd hPc hlt =>
    refine hC.stay rfl rfl rfl (SharedProducers.setHandle_unwritten fun t => ?_)
    simp only [MultiProducer.Unwritten, hPc, false_iff, not_and, not_le]
    omega
  | unwindUpdate => exact absurd (List.mem_singleton_self _) (hReturn _ _ _)
  | unwindEnd => exact absurd (List.mem_singleton_self _) (hReturn _ _ _)
  | unwindNext => exact absurd (List.mem_singleton_self _) (hReturn _ _ _)
  | load hPc hLoop =>
    obtain ⟨hClaims, hOut⟩ := MultiProducer.loop_unwritten hLoop
    exact hC.stay rfl rfl hClaims (SharedProducers.setHandle_unwritten fun t =>
      iff_of_false (hOut t) (hNone hPc (by simp) (by simp) t))
  | retry hPc hne hLoop =>
    obtain ⟨hClaims, hOut⟩ := MultiProducer.loop_unwritten hLoop
    exact hC.stay rfl rfl hClaims (SharedProducers.setHandle_unwritten fun t =>
      iff_of_false (hOut t) (hNone hPc (by simp) (by simp) t))
  | refuse hPc hFree hlt hRefuse =>
    unfold MultiProducer.refuse at hRefuse
    split at hRefuse <;> obtain ⟨rfl, rfl⟩ := Prod.mk.inj hRefuse <;>
      exact hC.stay rfl rfl rfl (SharedProducers.setHandle_unwritten fun t =>
        iff_of_false (fun ht => ht) (hNone hPc (by simp) (by simp) t))
  | _ =>
    exact hC.stay rfl rfl rfl (SharedProducers.setHandle_unwritten
      (by simp [MultiProducer.Unwritten, *]))

/-- **The slots hold the values of the claims**, as long as no closure unwinds. -/
theorem MultiRun.contents {R : MultiRingSize} (hWired : Wired T .multiProducer w)
    {tr : List (Event E)} {s : MultiSystem E} (h : MultiRun R w factory tr s)
    (hReturn : NoUnwind tr) : Contents R.toRingSize factory tr s := by
  refine MultiRun.rule hWired (P := fun tr s => NoUnwind tr → Contents R.toRingSize factory tr s)
    (fun _ => .init) ?_ h hReturn
  intro tr s act s' es _ hInv _ ih hStep hReturn
  have hC := ih hReturn.of_append
  cases hStep with
  | consumer hSpec hStep =>
    obtain ⟨hClaims, -, -⟩ := history_ofConsumer hStep.ofConsumer
    have hValues : claims (tr ++ es) = claims tr := by rw [claims_append, hClaims, List.append_nil]
    refine ⟨fun t hlo hhi hNone => ?_, fun h t ht => ?_⟩ <;> rw [hValues] <;>
      rcases hStep.memory with rfl | ⟨v, rfl⟩
    · exact hC.written t hlo hhi hNone
    · exact hC.written t hlo hhi hNone
    · exact hC.unwritten h t ht
    · exact hC.unwritten h t ht
  | handle hStep =>
    exact hInv.contents_step hC
      (fun h lower upper hMem => hReturn h lower upper (List.mem_append_right _ hMem)) hStep
  | clone hPc _ =>
    have hAbsent := hInv.absent s.producer.nextHandle (le_refl _)
    refine hC.stay rfl rfl rfl (SharedProducers.setHandle_unwritten fun t => ?_)
    rw [hAbsent]
    exact Iff.rfl
  | dropLast hPc _ =>
    exact hC.stay rfl rfl rfl (SharedProducers.setHandle_unwritten
      (by simp [MultiProducer.Unwritten, hPc]))
  | drop hPc _ =>
    exact hC.stay rfl rfl rfl (SharedProducers.setHandle_unwritten
      (by simp [MultiProducer.Unwritten, hPc]))

/-- What a consumer has been granted and is not done with holds the values. -/
theorem MultiRun.read {R : MultiRingSize} (hWired : Wired T .multiProducer w) {tr : List (Event E)}
    {s : MultiSystem E} (h : MultiRun R w factory tr s) (hReturn : NoUnwind tr) {c : Nat}
    (hMem : c ∈ T.members) {t : Int} (hlo : s.memory.consumerCursors c < t)
    (hhi : t ≤ (s.consumers c).granted (s.memory.consumerCursors c)) :
    s.memory.slots (R.slot t) = valueAt R.toRingSize factory (claims tr) t := by
  have hInv := MultiRun.inv hWired h
  have hPublished : t ∈ publishedBy tr := hInv.consistent.inv.granted_published hMem hhi
  have hClaimed : t ≤ s.memory.cursor := hInv.consistent.inv.published_le t hPublished
  have := hInv.cursor_le hMem
  exact (MultiRun.contents hWired h hReturn).written t (by omega) hClaimed fun h ht =>
    hInv.owed_fresh (hInv.unwritten_owed ht) hPublished

/-- **What a consumer observed is the stream of values** up to its next sequence. -/
theorem MultiRun.observed {R : MultiRingSize} (hWired : Wired T .multiProducer w)
    {tr : List (Event E)} {s : MultiSystem E} (h : MultiRun R w factory tr s)
    (hReturn : NoUnwind tr) {c : Nat} (hMem : c ∈ T.members) (hExhausts : Exhausts c tr) :
    Calvera.observed c tr = stream (valueAt R.toRingSize factory (claims tr)) (s.nextSequence c) := by
  refine MultiRun.rule hWired (P := fun tr s => NoUnwind tr → Exhausts c tr →
    Calvera.observed c tr = stream (valueAt R.toRingSize factory (claims tr)) (s.nextSequence c))
    (fun _ _ => ?_) ?_ h hReturn hExhausts
  · rw [MultiSystem.init, System.init_nextSequence]
    rfl
  · intro tr s act s' es hRun hInv _ ih hStep hReturn hExhausts
    have hOld := ih hReturn.of_append hExhausts.append.1
    exact hStep.move.observed_more hInv.consistent hMem hExhausts.append.2 hOld
      (fun t ht => by rw [claims_append, hInv.tiled.valueAt_append _ ht])
      fun t hlo hhi => MultiRun.read hWired hRun hReturn.of_append hMem hlo hhi

end Calvera
