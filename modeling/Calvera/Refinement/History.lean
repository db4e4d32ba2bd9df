import Calvera.Lib.InPlace
import Calvera.Refinement.Delivery
import Calvera.Refinement.Uni

/-!
# Refinement — the history of a single producer

What a `UniProducer` has published is, call by call, what its successful calls
claimed: `done` in `UniHistory` are their claims in order, and the one after
them is the claim in hand, if there is one. Calls that failed leave no mark.

The slots hold the values of the claims, except where the closure in progress
has still to write (`UniHistory.contents`).

* `UniRun.history` — both hold in every run whose closures return.
* `UniRun.observed` — consumers observe the stream of values.
-/

namespace Calvera

open Calvera.Lib Calvera.Protocol

variable {E : Type} {R : RingSize} {T : Topology Nat} {w : Wiring} {factory : Nat → E}

-- ---------------------------------------------------------------------------
-- Successful calls
-- ---------------------------------------------------------------------------

/-- A publishing call returned after publishing. -/
def Event.succeeded : Event E → Bool
  | .returned _ (.ok _) | .returned _ .done => true
  | _ => false

theorem Op.failure_not_succeeded (op : Op E) (h missing : Nat) :
    Event.succeeded (.returned h (op.failure missing) : Event E) = false := by
  unfold Op.failure
  split <;> rfl

/-- The number of publishing calls that returned after publishing. -/
def successes (tr : List (Event E)) : Nat := tr.countP Event.succeeded

@[simp] theorem successes_append (tr es : List (Event E)) :
    successes (tr ++ es) = successes tr + successes es :=
  List.countP_append

/-- The events neither claim, nor publish, nor return success. -/
structure Quiet (es : List (Event E)) : Prop where
  claims : claims es = []
  flips : flips es = []
  successes : successes es = 0

theorem quiet_nil : Quiet ([] : List (Event E)) := ⟨rfl, rfl, rfl⟩

theorem quiet_ofConsumer {es : List (Event E)} (h : ∀ e ∈ es, e.OfConsumer) : Quiet es := by
  obtain ⟨hClaims, hFlips, -⟩ := history_ofConsumer h
  refine ⟨hClaims, hFlips, ?_⟩
  rw [successes, List.countP_eq_zero]
  intro e hMem
  have hOf := h e hMem
  cases e <;> first | exact hOf.elim | exact Bool.false_ne_true

-- ---------------------------------------------------------------------------
-- The history
-- ---------------------------------------------------------------------------

namespace UniProducer

/-- The sequences the closure has still to change. -/
def unwritten (p : UniProducer E) : Set Int :=
  match p.pc with
  | .update _ => {p.sequence}
  | .updates _ iter _ => {t | iter.current ≤ t ∧ t ≤ iter.last}
  | _ => ∅

/-- The claim of the call in progress. -/
def inHand (p : UniProducer E) : List (Claim E) :=
  match p.pc with
  | .update op | .updates op _ _ | .publish op =>
    [⟨0, p.sequence, p.sequence + op.nI64 - 1, op.update⟩]
  | _ => []

end UniProducer

/-- The claims made in order, and the values they leave in the slots. -/
structure UniHistory (R : RingSize) (factory : Nat → E) (tr : List (Event E)) (s : UniSystem E) :
    Prop where
  tiled : Tiled (claims tr) s.producer.claimed
  done : ∃ done, claims tr = done ++ s.producer.inHand ∧ done.length = successes tr ∧
    flips tr = done.flatMap fun claim => seqRange claim.lower claim.upper
  contents : InPlace R.size s.memory.slots s.producer.claimed s.producer.unwritten
    (valueAt R factory (claims tr))

namespace UniHistory

variable {tr es : List (Event E)} {s : UniSystem E} {memory : Memory E} {p' : UniProducer E}

theorem init : UniHistory R factory [] (UniSystem.init R w factory) where
  tiled := .nil
  done := ⟨[], rfl, rfl, rfl⟩
  contents := by
    refine ⟨fun t ht => ht.elim, fun t hlo hhi _ => ?_, fun t ht => ht.elim⟩
    have hNeg : t ≤ -1 := hhi
    rw [valueAt_neg (by omega), R.slot_eq]
    rfl

/-- A step that neither claims, nor writes, nor publishes. -/
theorem stay (h : UniHistory R factory tr s) (hQuiet : Quiet es)
    (hSlots : memory.slots = s.memory.slots) (hClaimed : p'.claimed = s.producer.claimed)
    (hInHand : p'.inHand = s.producer.inHand) (hUnwritten : p'.unwritten = s.producer.unwritten)
    (consumers : Nat → ConsumerPc) :
    UniHistory R factory (tr ++ es) ⟨memory, consumers, p'⟩ := by
  have hClaims : claims (tr ++ es) = claims tr := by
    rw [claims_append, hQuiet.claims, List.append_nil]
  refine ⟨?_, ?_, ?_⟩
  · rw [hClaims]
    exact hClaimed ▸ h.tiled
  · obtain ⟨done, hDone, hLength, hFlips⟩ := h.done
    refine ⟨done, ?_, ?_, ?_⟩
    · rw [hClaims, hDone, ← hInHand]
    · rw [successes_append, hQuiet.successes, hLength, Nat.add_zero]
    · rw [flips_append, hQuiet.flips, List.append_nil, hFlips]
  · rw [hClaims]
    show InPlace R.size memory.slots p'.claimed p'.unwritten _
    rw [hSlots, hClaimed, hUnwritten]
    exact h.contents

/-- `next_sequences` returns `Ok`: the slots of the batch hold the round before. -/
theorem claim (h : UniHistory R factory tr s) (hInv : UniInv R T tr s) {op : Op E}
    {nNext clear : Int} (hRange : op.InRange) (hNext : nNext = s.producer.sequence - 1 + op.nI64)
    (hFree : s.producer.inHand = [] ∧ s.producer.unwritten = ∅ ∧ s.producer.pc.inFlight = 0)
    (hRoom : ∀ c ∈ T.members, nNext ≤ s.memory.consumerCursors c + R.size)
    (hClaim : UniProducer.claim { s.producer with sequenceClearOfConsumers := clear } op nNext =
      (p', es)) : UniHistory R factory (tr ++ es) { s with producer := p' } := by
  obtain ⟨hNone, hWritten, hInFlight⟩ := hFree
  have hN := hRange.nI64
  have hOld : s.producer.claimed = s.producer.sequence - 1 := by
    rw [UniProducer.claimed, hInFlight, Int.add_zero]
  have hUpper : s.producer.sequence + op.nI64 - 1 = nNext := by omega
  obtain ⟨rfl, rfl⟩ := Prod.mk.inj hClaim
  set p' : UniProducer E := { s.producer with
    sequenceClearOfConsumers := clear
    pc := if op.isBatch then .updates op (.new s.producer.sequence
      (s.producer.sequence + op.nI64 - 1)) 0 else .update op } with hp'
  have hClaims : claims (tr ++ [.claimed 0 s.producer.sequence nNext op.update]) =
      claims tr ++ [⟨0, s.producer.sequence, nNext, op.update⟩] := claims_append _ _
  have hClaimed : p'.claimed = nNext := by
    rw [hp', UniProducer.claimed]
    cases op.isBatch <;> exact hNext.symm
  have hInHand : p'.inHand = [⟨0, s.producer.sequence, nNext, op.update⟩] := by
    rw [hp', ← hUpper]
    cases hBatch : op.isBatch <;> rfl
  have hUnwritten : p'.unwritten = {t | s.producer.sequence - 1 < t ∧ t ≤ nNext} := by
    ext t
    rw [hp', ← hUpper]
    cases hBatch : op.isBatch with
    | true =>
      show s.producer.sequence ≤ t ∧ t ≤ s.producer.sequence + op.nI64 - 1 ↔ _ ∧ _
      omega
    | false =>
      have := op.nI64_of_not_isBatch hBatch
      show t = s.producer.sequence ↔ _ ∧ _
      omega
  refine ⟨?_, ?_, ?_⟩
  · show Tiled _ p'.claimed
    rw [hClaims, hClaimed]
    exact h.tiled.snoc (by show s.producer.sequence = _; omega) (by show _ ≤ nNext; omega)
  · obtain ⟨done, hDone, hLength, hFlips⟩ := h.done
    rw [hNone, List.append_nil] at hDone
    refine ⟨done, ?_, ?_, ?_⟩
    · show _ = done ++ p'.inHand
      rw [hClaims, hDone, hInHand]
    · rw [successes_append, hLength]
      rfl
    · rw [flips_append, hFlips]
      exact List.append_nil _
  · -- the values so far are not touched
    have hSame : ∀ t ≤ s.producer.claimed, valueAt R factory (claims tr) t =
        valueAt R factory (claims (tr ++ [.claimed 0 s.producer.sequence nNext op.update])) t := by
      intro t ht
      rw [hClaims, h.tiled.valueAt_append _ ht]
    obtain ⟨c, hMem⟩ := T.nonempty
    have := hRoom c hMem
    have : s.memory.consumerCursors c ≤ s.producer.claimed :=
      hInv.consistent.inv.cursor_le_claimed hMem
    have hMore := (h.contents.congr hSame).claim (by omega : s.producer.claimed ≤ nNext) (by omega)
      (by simp [hWritten])
    rw [hWritten, Set.empty_union, hOld] at hMore
    show InPlace R.size s.memory.slots p'.claimed p'.unwritten _
    rw [hClaimed, hUnwritten]
    exact hMore

/-- The closure changes the event at `u`. -/
theorem write (h : UniHistory R factory tr s) {op : Op E} {u : Int} {k : Nat}
    (hInHand : s.producer.inHand =
      [⟨0, s.producer.sequence, s.producer.sequence + op.nI64 - 1, op.update⟩])
    (hu : u ∈ s.producer.unwritten) (hk : u = s.producer.sequence + k)
    (hLast : u ≤ s.producer.sequence + op.nI64 - 1) (hClaimed : p'.claimed = s.producer.claimed)
    (hSame : p'.inHand = s.producer.inHand) (hRest : p'.unwritten = s.producer.unwritten \ {u}) :
    UniHistory R factory (tr ++ [.updated 0 u])
      { s with memory := s.memory.updateSlot (R.slot u) (op.update k), producer := p' } := by
  have hClaims : claims (tr ++ [.updated 0 u]) = claims tr := by simp [claims, Event.claim?]
  have hValue : valueAt R factory (claims tr) u =
      op.update k (valueAt R factory (claims tr) (u - R.size)) := by
    obtain ⟨done, hDone, -⟩ := h.done
    have hMem : ⟨0, s.producer.sequence, s.producer.sequence + op.nI64 - 1, op.update⟩ ∈
        claims tr := by
      rw [hDone, hInHand]
      exact List.mem_append_right _ (List.mem_singleton_self _)
    have hIndex : (u - s.producer.sequence).toNat = k := by omega
    rw [h.tiled.valueAt_eq hMem ⟨by show s.producer.sequence ≤ u; omega, hLast⟩, hIndex]
  refine ⟨?_, ?_, ?_⟩
  · rw [hClaims]
    exact hClaimed ▸ h.tiled
  · obtain ⟨done, hDone, hLength, hFlips⟩ := h.done
    refine ⟨done, ?_, ?_, ?_⟩
    · rw [hClaims, hDone, ← hSame]
    · rw [successes_append, hLength]
      rfl
    · rw [flips_append, hFlips]
      exact List.append_nil _
  · have hWrite := h.contents.write R.pos hu hValue
    rw [hClaims]
    show InPlace R.size (s.memory.updateSlot (R.slot u) (op.update k)).slots p'.claimed
      p'.unwritten _
    rw [hClaimed, hRest, Memory.updateSlot, R.slot_eq]
    exact hWrite

/-- The store to the producer barrier publishes the claim in hand. -/
theorem publish (h : UniHistory R factory tr s) {op : Op E} {upper : Int}
    (hPc : s.producer.pc = .publish op) (hUpper : upper = s.producer.sequence + op.nI64 - 1) :
    UniHistory R factory
      (tr ++ [.published 0 (seqRange s.producer.sequence upper), .returned 0 (op.success upper)])
      { s with
        memory := s.memory.setCursor upper
        producer := { s.producer with
          sequence := s.producer.sequence + op.nI64
          pc := .idle } } := by
  set es : List (Event E) :=
    [.published 0 (seqRange s.producer.sequence upper), .returned 0 (op.success upper)] with hes
  have hClaims : claims (tr ++ es) = claims tr := by simp [hes, claims, Event.claim?]
  have hSuccess : successes es = 1 := by
    rw [hes, Op.success]
    cases op.spins <;> rfl
  have hClaimed : s.producer.claimed = UniProducer.claimed (E := E)
      { s.producer with sequence := s.producer.sequence + op.nI64, pc := .idle } := by
    simp only [UniProducer.claimed, hPc, UniPc.inFlight]
    omega
  have hUnwritten : s.producer.unwritten = ∅ := by simp [UniProducer.unwritten, hPc]
  have hInHand : s.producer.inHand = [⟨0, s.producer.sequence, upper, op.update⟩] := by
    simp [UniProducer.inHand, hPc, hUpper]
  refine ⟨?_, ?_, ?_⟩
  · rw [hClaims]
    exact hClaimed ▸ h.tiled
  · obtain ⟨done, hDone, hLength, hFlips⟩ := h.done
    refine ⟨done ++ s.producer.inHand, ?_, ?_, ?_⟩
    · rw [hClaims, hDone]
      exact (List.append_nil _).symm
    · rw [successes_append, hSuccess, hInHand, List.length_append, hLength]
      rfl
    · rw [flips_append, hFlips, List.flatMap_append, hInHand, hes]
      simp [flips, Event.sequences]
  · rw [hClaims]
    show InPlace R.size s.memory.slots _ ∅ _
    rw [← hClaimed, ← hUnwritten]
    exact h.contents

/-- Nothing is in hand, and nothing was done. -/
structure Idle (p p' : UniProducer E) (es : List (Event E)) : Prop where
  quiet : Quiet es
  sequence : p'.sequence = p.sequence
  inFlight : p'.pc.inFlight = 0
  inHand : p'.inHand = []
  unwritten : p'.unwritten = ∅

/-- Entering `next_sequences` leaves no mark. -/
theorem next {p : UniProducer E} {op : Op E} (hNext : p.nextSequences op = (p', es)) :
    Idle p p' es := by
  rcases UniProducer.nextSequences_cases hNext with ⟨rfl, rfl⟩ | ⟨rfl, rfl, -⟩
  · exact ⟨⟨rfl, rfl, rfl⟩, rfl, rfl, rfl, rfl⟩
  · exact ⟨quiet_nil, rfl, rfl, rfl, rfl⟩

/-- A refused call leaves no mark. -/
theorem refuse {p : UniProducer E} {op : Op E} {missing : Nat}
    (hRefuse : p.refuse op missing = (p', es)) : Idle p p' es := by
  unfold UniProducer.refuse at hRefuse
  split at hRefuse
  · -- `publish` and `batch_publish` call `next_sequences` again
    generalize hNext : p.nextSequences op = entered at hRefuse
    obtain ⟨q', es'⟩ := entered
    obtain ⟨rfl, rfl⟩ := Prod.mk.inj hRefuse
    have hIdle := next hNext
    exact { hIdle with
      quiet := ⟨hIdle.quiet.claims, hIdle.quiet.flips,
        (List.countP_cons_of_neg Bool.false_ne_true).trans hIdle.quiet.successes⟩ }
  · obtain ⟨rfl, rfl⟩ := Prod.mk.inj hRefuse
    refine ⟨⟨rfl, rfl, ?_⟩, rfl, rfl, rfl, rfl⟩
    exact (List.countP_cons_of_neg Bool.false_ne_true).trans
      (List.countP_cons_of_neg (by rw [Op.failure_not_succeeded]; exact Bool.false_ne_true))

/-- A step between two moments at which nothing is in hand. -/
theorem idle (h : UniHistory R factory tr s) (hIdle : Idle s.producer p' es)
    (hInFlight : s.producer.pc.inFlight = 0) (hInHand : s.producer.inHand = [])
    (hUnwritten : s.producer.unwritten = ∅) :
    UniHistory R factory (tr ++ es) { s with producer := p' } := by
  refine h.stay hIdle.quiet rfl ?_ (hIdle.inHand.trans hInHand.symm)
    (hIdle.unwritten.trans hUnwritten.symm) _
  rw [UniProducer.claimed, UniProducer.claimed, hIdle.sequence, hIdle.inFlight, hInFlight]

/-- **A step of the producer whose closure does not unwind keeps the history.** -/
theorem producer (h : UniHistory R factory tr s) (hInv : UniInv R T tr s) {barrier : Barrier}
    {handles : List Nat} {exited : Nat → Bool} {act : UniAct E} (hReturn : NoUnwind es)
    (hStep : UniStep R barrier handles exited s.memory s.producer act memory p' es) :
    UniHistory R factory (tr ++ es) { s with memory := memory, producer := p' } := by
  have hOk := hInv.pc
  cases hStep with
  | call hPc hNext =>
    exact h.idle (next hNext) (by rw [hPc]; rfl) (by simp [UniProducer.inHand, hPc])
      (by simp [UniProducer.unwritten, hPc])
  | fast hPc hle hClaim =>
    rw [hPc] at hOk
    obtain ⟨hRange, hNext, -⟩ := hOk
    exact h.claim hInv hRange hNext (by simp [UniProducer.inHand, UniProducer.unwritten, hPc,
      UniPc.inFlight]) (fun c hMem => hle.trans (hInv.clear c hMem)) hClaim
  | accept hPc hFree hle hClear hClaim =>
    rw [hPc] at hOk
    obtain ⟨hRange, hNext, -, hPassed⟩ := hOk
    have hFree' := R.freeSlots_eq_some hFree
    refine h.claim hInv hRange hNext (by simp [UniProducer.inHand, UniProducer.unwritten, hPc,
      UniPc.inFlight]) (fun c hMem => ?_) hClaim
    have := hInv.consistent.inv.le_cursor hPassed hMem
    change _ ≤ s.memory.consumerCursors c at this
    omega
  | refuse hPc hFree hlt hRefuse =>
    exact h.idle (refuse hRefuse) (by rw [hPc]; rfl) (by simp [UniProducer.inHand, hPc])
      (by simp [UniProducer.unwritten, hPc])
  | @update op hPc =>
    rw [hPc] at hOk
    have hN := op.nI64_of_not_isBatch hOk.2
    refine h.write (k := 0) (by simp [UniProducer.inHand, hPc]) (by simp [UniProducer.unwritten, hPc])
      (by simp) (by omega) (by simp [UniProducer.claimed, UniPc.inFlight, hPc])
      (by simp [UniProducer.inHand, hPc]) ?_
    simp [UniProducer.unwritten, hPc]
  | @updatesNext op iter k hPc hle =>
    rw [hPc] at hOk
    obtain ⟨-, hLast, hCurrent, -⟩ := hOk
    refine h.write (by simp [UniProducer.inHand, hPc]) (by simp [UniProducer.unwritten, hPc, hle])
      hCurrent (by omega) (by simp [UniProducer.claimed, UniPc.inFlight, hPc])
      (by simp [UniProducer.inHand, hPc]) ?_
    ext t
    simp only [UniProducer.unwritten, hPc]
    show iter.current + 1 ≤ t ∧ t ≤ iter.last ↔ (iter.current ≤ t ∧ t ≤ iter.last) ∧ ¬ t = _
    omega
  | updatesEnd hPc hlt =>
    refine h.stay quiet_nil rfl (by simp [UniProducer.claimed, UniPc.inFlight, hPc])
      (by simp [UniProducer.inHand, hPc]) ?_ _
    ext t
    simp only [UniProducer.unwritten, hPc, Set.mem_empty_iff_false, Set.mem_ofPred_eq, false_iff]
    omega
  | publish hPc => exact h.publish hPc rfl
  | unwindUpdate => exact absurd (List.mem_singleton_self _) (hReturn _ _ _)
  | unwindEnd => exact absurd (List.mem_singleton_self _) (hReturn _ _ _)
  | unwindNext => exact absurd (List.mem_singleton_self _) (hReturn _ _ _)
  | _ =>
    refine h.stay ?_ ?_ ?_ ?_ ?_ _
    · exact ⟨rfl, rfl, rfl⟩
    · rfl
    · simp [UniProducer.claimed, UniPc.inFlight, *]
    · simp [UniProducer.inHand, *]
    · simp [UniProducer.unwritten, *]

end UniHistory

-- ---------------------------------------------------------------------------
-- Runs
-- ---------------------------------------------------------------------------

/-- **The history holds in every run** whose closures return. -/
theorem UniRun.history (hWired : Wired T .uniProducer w) {tr : List (Event E)} {s : UniSystem E}
    (h : UniRun R w factory tr s) (hReturn : NoUnwind tr) : UniHistory R factory tr s := by
  refine UniRun.rule hWired (P := fun tr s => NoUnwind tr → UniHistory R factory tr s)
    (fun _ => .init) ?_ h hReturn
  intro tr s act s' es _ hInv _ ih hStep hReturn
  have hOld := ih hReturn.of_append
  cases hStep with
  | consumer hSpec hStep =>
    refine hOld.stay (quiet_ofConsumer hStep.ofConsumer) ?_ rfl rfl rfl _
    rcases hStep.memory with rfl | ⟨v, rfl⟩ <;> rfl
  | producer hStep =>
    exact hOld.producer hInv
      (fun h lower upper hMem => hReturn h lower upper (List.mem_append_right _ hMem)) hStep

/-- What a consumer has been granted and is not done with holds the values. -/
theorem UniRun.read (hWired : Wired T .uniProducer w) {tr : List (Event E)} {s : UniSystem E}
    (h : UniRun R w factory tr s) (hReturn : NoUnwind tr) {c : Nat} (hMem : c ∈ T.members) {t : Int}
    (hlo : s.memory.consumerCursors c < t)
    (hhi : t ≤ (s.consumers c).granted (s.memory.consumerCursors c)) :
    s.memory.slots (R.slot t) = valueAt R factory (claims tr) t := by
  have hInv := UniRun.inv hWired h
  have hPublished : t < s.producer.sequence :=
    hInv.mem_publishedBy_iff.mp (hInv.consistent.inv.granted_published hMem hhi)
  have hClaimed : t ≤ s.producer.claimed := hInv.consistent.inv.published_le t
    (hInv.consistent.inv.granted_published hMem hhi)
  have hRoom : s.producer.claimed ≤ s.memory.consumerCursors c + R.size :=
    hInv.consistent.inv.claimed_le hMem
  rw [R.slot_eq]
  refine (UniRun.history hWired h hReturn).contents.written t (by omega) hClaimed fun ht => ?_
  -- what the closure has still to write comes after what is published
  have hOk := hInv.pc
  unfold UniProducer.unwritten at ht
  split at ht <;> rename_i hPc
  · obtain rfl : t = s.producer.sequence := ht
    omega
  · rw [hPc] at hOk
    obtain ⟨-, -, hCurrent, -⟩ := hOk
    have := ht.1
    omega
  · exact ht

/-- **What a consumer observed is the stream of values** up to its next sequence. -/
theorem UniRun.observed (hWired : Wired T .uniProducer w) {tr : List (Event E)} {s : UniSystem E}
    (h : UniRun R w factory tr s) (hReturn : NoUnwind tr) {c : Nat} (hMem : c ∈ T.members)
    (hExhausts : Exhausts c tr) :
    Calvera.observed c tr = stream (valueAt R factory (claims tr)) (s.nextSequence c) := by
  refine UniRun.rule hWired (P := fun tr s => NoUnwind tr → Exhausts c tr →
    Calvera.observed c tr = stream (valueAt R factory (claims tr)) (s.nextSequence c))
    (fun _ _ => ?_) ?_ h hReturn hExhausts
  · rw [UniSystem.init, System.init_nextSequence]
    rfl
  · intro tr s act s' es hRun hInv _ ih hStep hReturn hExhausts
    have hOld := ih hReturn.of_append hExhausts.append.1
    have hTiled := (UniRun.history hWired hRun hReturn.of_append).tiled
    exact hStep.move.observed_more hInv.consistent hMem hExhausts.append.2 hOld
      (fun t ht => by rw [claims_append, hTiled.valueAt_append _ ht])
      fun t hlo hhi => UniRun.read hWired hRun hReturn.of_append hMem hlo hhi

end Calvera
