import Calvera.Refinement.Consumers

/-!
# Refinement — the single producer

Every step of a single-producer disruptor is a move of the pipeline, or none.
The producer has claimed what it published plus the batch in its hands
(`UniProducer.claimed`); when a closure unwinds, the batch is given back,
because `sequence` was not advanced yet.

The cached bound is covered by `UniInv.clear`: it is at most one round ahead of
every cursor of the last stage, and cursors only move forward.

* `UniRun.inv` — the invariant holds in every reachable state.
-/

namespace Calvera

open Calvera.Lib Calvera.Protocol

variable {E : Type} {R : RingSize} {T : Topology Nat} {w : Wiring} {factory : Nat → E}

/-- The number of sequences claimed and not published yet. -/
def UniPc.inFlight : UniPc E → Int
  | .update op | .updates op _ _ | .publish op => op.nI64
  | _ => 0

/-- The highest claimed sequence. -/
def UniProducer.claimed (p : UniProducer E) : Int := p.sequence - 1 + p.pc.inFlight

/-- What the local variables of `next_sequences` and of the closures say. -/
def UniPc.Ok (R : RingSize) (T : Topology Nat) (a : State Nat) (sequence : Int) :
    UniPc E → Prop
  | .check op nNext => op.InRange ∧ nNext = sequence - 1 + op.nI64 ∧ nNext ≤ i64Max
  | .getAfter op nNext g => op.InRange ∧ nNext = sequence - 1 + op.nI64 ∧ nNext ≤ i64Max ∧
      g.Sound R T .uniProducer a (T.last + 1) (sequence - 1)
  | .freeSlots op nNext rear => op.InRange ∧ nNext = sequence - 1 + op.nI64 ∧ nNext ≤ i64Max ∧
      a.Passed T (T.last + 1) rear
  | .update op => op.InRange ∧ op.isBatch = false
  | .updates op iter k => op.InRange ∧ iter.last = sequence + op.nI64 - 1 ∧
      iter.current = sequence + k ∧ k ≤ op.n
  | .publish op => op.InRange
  | _ => True

theorem UniPc.Ok.later {a a' : State Nat} {sequence : Int} {pc : UniPc E}
    (h : pc.Ok R T a sequence) (hLater : a.Later T a') : pc.Ok R T a' sequence := by
  cases pc with
  | getAfter op nNext g =>
    obtain ⟨hRange, hNext, hMax, hSound⟩ := h
    exact ⟨hRange, hNext, hMax, hSound.later hLater⟩
  | freeSlots op nNext rear =>
    obtain ⟨hRange, hNext, hMax, hPassed⟩ := h
    exact ⟨hRange, hNext, hMax, hPassed.later hLater⟩
  | _ => exact h

/-- The invariant of a single-producer disruptor. -/
structure UniInv (R : RingSize) (T : Topology Nat) (tr : List (Event E)) (s : UniSystem E) :
    Prop where
  consistent : s.Consistent R T .uniProducer s.producer.claimed (publishedBy tr)
  cursor : s.memory.cursor = s.producer.sequence - 1
  sequence : 0 ≤ s.producer.sequence
  flipped : flips tr = seqRange 0 (s.producer.sequence - 1)
  clear : ∀ c ∈ T.members,
    s.producer.sequenceClearOfConsumers ≤ s.memory.consumerCursors c + R.size
  pc : s.producer.pc.Ok R T (s.pipeline s.producer.claimed (publishedBy tr)) s.producer.sequence

namespace UniInv

variable {tr : List (Event E)} {s : UniSystem E} {memory : Memory E} {p' : UniProducer E}
  {es : List (Event E)}

theorem init (hWired : Wired T .uniProducer w) :
    UniInv R T [] (UniSystem.init R w factory) := by
  have hNone : publishedBy ([] : List (Event E)) = {s | s < 0} := by
    ext s
    simp
  refine ⟨?_, rfl, le_refl _, rfl, fun c _ => ?_, trivial⟩
  · rw [hNone]
    exact .init hWired (.inl rfl) factory _
  · show R.sizeI64 - 1 ≤ -1 + (R.size : Int)
    rw [R.sizeI64_eq]
    omega

/-- A sequence is published when it is below `sequence`. -/
theorem mem_publishedBy_iff (h : UniInv R T tr s) {t : Int} :
    t ∈ publishedBy tr ↔ t < s.producer.sequence := by
  have := h.sequence
  rw [mem_publishedBy, h.flipped, mem_seqRange]
  omega

/-- A step of a consumer keeps the invariant. -/
theorem consumer (h : UniInv R T tr s) (hWired : Wired T .uniProducer w) {c : Nat}
    {spec : ConsumerSpec} {pc : ConsumerPc} (hSpec : w.consumers[c]? = some spec)
    (hStep : ConsumerStep R spec.dependentBarrier c s.memory (s.consumers c) memory pc es) :
    UniInv R T (tr ++ es)
      { s with memory := memory, consumers := Function.update s.consumers c pc } := by
  obtain ⟨-, hFlips, -⟩ := history_ofConsumer hStep.ofConsumer
  have hSame : publishedBy (tr ++ es) = publishedBy tr := by
    ext t
    simp [hFlips]
  have hConsistent := h.consistent.consumer hWired hSpec hStep
  have hLater : State.Later T (s.pipeline s.producer.claimed (publishedBy tr))
      (System.pipeline { s with memory := memory, consumers := Function.update s.consumers c pc }
        s.producer.claimed (publishedBy tr)) :=
    (h.consistent.consumer_steps (hWired.mem hSpec) (hWired.dependentBarrier hSpec) hStep).1.later
  refine ⟨?_, ?_, h.sequence, ?_, fun c' hMem => ?_, ?_⟩
  · rw [hSame]
    exact hConsistent
  · have hCursor : memory.cursor = s.memory.cursor := by
      rcases hStep.memory with rfl | ⟨v, rfl⟩ <;> rfl
    exact hCursor.trans h.cursor
  · rw [flips_append, hFlips, List.append_nil]
    exact h.flipped
  · have := h.clear c' hMem
    have hCursor : s.memory.consumerCursors c' ≤ memory.consumerCursors c' := hLater.cursor c' hMem
    show s.producer.sequenceClearOfConsumers ≤ memory.consumerCursors c' + R.size
    omega
  · rw [hSame]
    exact h.pc.later hLater

/-- A step of the producer that neither claims nor publishes. -/
theorem stay (h : UniInv R T tr s) (hSequence : p'.sequence = s.producer.sequence)
    (hInFlight : p'.pc.inFlight = s.producer.pc.inFlight)
    (hClear : ∀ c ∈ T.members, p'.sequenceClearOfConsumers ≤ s.memory.consumerCursors c + R.size)
    (hFlips : flips es = []) (hMemory : ∃ slots shutdown,
      memory = { s.memory with slots := slots, shutdownAtSequence := shutdown })
    (hOk : p'.pc.Ok R T (s.pipeline s.producer.claimed (publishedBy tr)) s.producer.sequence) :
    UniInv R T (tr ++ es) { s with memory := memory, producer := p' } := by
  obtain ⟨slots, shutdown, rfl⟩ := hMemory
  have hSame : publishedBy (tr ++ es) = publishedBy tr := by
    ext t
    simp [hFlips]
  have hClaimed : p'.claimed = s.producer.claimed := by
    rw [UniProducer.claimed, UniProducer.claimed, hSequence, hInFlight]
  refine ⟨?_, ?_, ?_, ?_, hClear, ?_⟩
  · rw [hSame, hClaimed]
    exact h.consistent.producer rfl rfl .refl
      ⟨fun _ => rfl, h.consistent.represents.published⟩ h.consistent.claimed_le
  · rw [hSequence]
    exact h.cursor
  · rw [hSequence]
    exact h.sequence
  · rw [flips_append, hFlips, List.append_nil, hSequence]
    exact h.flipped
  · rw [hSame, hClaimed, hSequence]
    exact hOk

/-- Returning `Ok` from `next_sequences` claims the batch. -/
theorem claim (h : UniInv R T tr s) {op : Op E} {nNext clear : Int} (hRange : op.InRange)
    (hNext : nNext = s.producer.sequence - 1 + op.nI64) (hMax : nNext ≤ i64Max)
    (hIdle : s.producer.pc.inFlight = 0)
    (hClear : ∀ c ∈ T.members, clear ≤ s.memory.consumerCursors c + R.size) (hle : nNext ≤ clear)
    (hClaim : UniProducer.claim { s.producer with sequenceClearOfConsumers := clear } op nNext =
      (p', es)) :
    UniInv R T (tr ++ es) { s with producer := p' } := by
  have hN := hRange.nI64
  unfold UniProducer.claim at hClaim
  obtain ⟨rfl, rfl⟩ := Prod.mk.inj hClaim
  have hSame : publishedBy (tr ++ [.claimed 0 s.producer.sequence nNext op.update]) =
      publishedBy tr := by
    ext t
    simp [Calvera.flips, Event.sequences]
  have hOld : s.producer.claimed = s.producer.sequence - 1 := by
    rw [UniProducer.claimed, hIdle, Int.add_zero]
  have hInFlight : (if op.isBatch = true then
      UniPc.updates op (.new s.producer.sequence (s.producer.sequence + op.nI64 - 1)) 0
      else .update op).inFlight = op.nI64 := by
    cases op.isBatch <;> rfl
  have hRoom : Step T R.size (s.pipeline s.producer.claimed (publishedBy tr))
      (s.pipeline nNext (publishedBy tr)) := by
    rw [show nNext = s.producer.claimed + op.n by omega]
    refine .claim op.n fun c hMem _ => ?_
    have := hClear c hMem
    show s.producer.claimed + op.n - R.size ≤ s.memory.consumerCursors c
    omega
  refine ⟨?_, h.cursor, h.sequence, ?_, hClear, ?_⟩
  · rw [hSame, UniProducer.claimed, hInFlight, ← hNext]
    exact h.consistent.producer rfl rfl (.single hRoom)
      ⟨fun _ => rfl, h.consistent.represents.published⟩ hMax
  · rw [flips_append]
    simpa [Calvera.flips, Event.sequences] using h.flipped
  · show UniPc.Ok R T _ s.producer.sequence _
    cases hBatch : op.isBatch with
    | true => exact ⟨hRange, rfl, by simp [MutBatchIter.new], Nat.zero_le _⟩
    | false => exact ⟨hRange, hBatch⟩

/-- When the closure unwinds, the batch is given back. -/
theorem unwind (h : UniInv R T tr s) {slots : Nat → E} {lower upper : Int} {op : Op E}
    (hRange : op.InRange) (hInFlight : s.producer.pc.inFlight = op.nI64) :
    UniInv R T (tr ++ [.unwound 0 lower upper])
      { s with
        memory := { s.memory with slots := slots }
        producer := { s.producer with pc := .idle } } := by
  have hN := hRange.nI64
  have hSame : publishedBy (tr ++ [.unwound 0 lower upper]) = publishedBy tr := by
    ext t
    simp [Calvera.flips, Event.sequences]
  have hOld : s.producer.claimed = s.producer.sequence - 1 + op.n := by
    rw [UniProducer.claimed, hInFlight, hN]
  have hMove : Step T R.size (s.pipeline s.producer.claimed (publishedBy tr))
      (s.pipeline (s.producer.sequence - 1) (publishedBy tr)) := by
    rw [show s.producer.sequence - 1 = s.producer.claimed - op.n by omega]
    refine .retract op.n fun t ht => ?_
    have := h.mem_publishedBy_iff.mp ht
    show t ≤ s.producer.claimed - op.n
    omega
  have hNow : UniProducer.claimed (E := E) { s.producer with pc := .idle } =
      s.producer.sequence - 1 := by
    simp [UniProducer.claimed, UniPc.inFlight]
  refine ⟨?_, h.cursor, h.sequence, ?_, h.clear, trivial⟩
  · rw [hSame, hNow]
    refine h.consistent.producer rfl rfl (.single hMove)
      ⟨fun _ => rfl, h.consistent.represents.published⟩ ?_
    have := h.consistent.claimed_le
    omega
  · rw [flips_append]
    simpa [Calvera.flips, Event.sequences] using h.flipped

/-- Storing to the producer barrier publishes the batch. -/
theorem publish (h : UniInv R T tr s) {op : Op E} {result : CallResult} (hRange : op.InRange)
    (hInFlight : s.producer.pc.inFlight = op.nI64) :
    UniInv R T (tr ++ [.published 0 (seqRange s.producer.sequence
        (s.producer.sequence + op.nI64 - 1)), .returned 0 result])
      { s with
        memory := s.memory.setCursor (s.producer.sequence + op.nI64 - 1)
        producer := { s.producer with
          sequence := s.producer.sequence + op.nI64
          pc := .idle } } := by
  have hN := hRange.nI64
  have hPos := h.sequence
  set upper := s.producer.sequence + op.nI64 - 1 with hUpper
  have hFlips : Calvera.flips (tr ++ [.published 0 (seqRange s.producer.sequence upper),
      .returned 0 result]) = seqRange 0 upper := by
    have hMeet : seqRange 0 (s.producer.sequence - 1) ++ seqRange (s.producer.sequence - 1 + 1) upper =
        seqRange 0 upper := seqRange_append (by omega) (by omega)
    rw [Int.sub_add_cancel] at hMeet
    rw [flips_append, h.flipped, ← hMeet]
    simp [Calvera.flips, Event.sequences]
  have hNew : publishedBy (tr ++ [.published 0 (seqRange s.producer.sequence upper),
      .returned 0 result]) = publishedBy tr ∪ {t | t ≤ upper} := by
    ext t
    rw [Set.mem_union, h.mem_publishedBy_iff, mem_publishedBy, hFlips, mem_seqRange]
    simp only [Set.mem_ofPred_eq]
    omega
  have hOld : s.producer.claimed = upper := by
    rw [UniProducer.claimed, hInFlight]
    omega
  have hNow : UniProducer.claimed (E := E) { s.producer with
      sequence := s.producer.sequence + op.nI64, pc := .idle } = upper := by
    simp only [UniProducer.claimed, UniPc.inFlight]
    omega
  have hMove : Step T R.size (s.pipeline s.producer.claimed (publishedBy tr))
      (s.pipeline upper (publishedBy tr ∪ {t | t ≤ upper})) := by
    rw [← hOld]
    exact .publish _ fun t ht => by
      have : t ≤ s.producer.claimed := ht
      exact this
  have hNonneg : 0 ≤ s.producer.sequence + op.nI64 := by omega
  refine ⟨?_, rfl, hNonneg, ?_, h.clear, trivial⟩
  · rw [hNow, hNew]
    refine h.consistent.producer rfl rfl (.single hMove) ⟨fun _ => rfl, fun t => ?_⟩ ?_
    · show t ∈ publishedBy tr ∪ {t | t ≤ upper} ↔ t ≤ upper
      rw [Set.mem_union, h.mem_publishedBy_iff]
      simp only [Set.mem_ofPred_eq]
      omega
    · rw [← hOld]
      exact h.consistent.claimed_le
  · exact hFlips

/-- Entering `next_sequences` changes the program counter only. -/
theorem next {p : UniProducer E} {op : Op E} (hRange : op.InRange)
    (hNext : p.nextSequences op = (p', es)) (a : State Nat) :
    Calvera.flips es = [] ∧ p'.sequence = p.sequence ∧ p'.pc.inFlight = 0 ∧
      p'.sequenceClearOfConsumers = p.sequenceClearOfConsumers ∧ p'.pc.Ok R T a p.sequence := by
  rcases UniProducer.nextSequences_cases hNext with ⟨rfl, rfl⟩ | ⟨rfl, rfl, -, hIn⟩
  · exact ⟨rfl, rfl, rfl, rfl, trivial⟩
  · exact ⟨rfl, rfl, rfl, rfl, hRange, rfl, hIn.2⟩

/-- **Every step keeps the invariant.** -/
theorem step (h : UniInv R T tr s) (hWired : Wired T .uniProducer w) {act : Act (UniAct E)}
    {s' : UniSystem E} (hRange : UniAct.InRange act)
    (hs : UniSystem.step R w s act = some (s', es)) : UniInv R T (tr ++ es) s' := by
  have hOk := h.pc
  have hUnchanged : ∃ slots shutdown, s.memory =
      { s.memory with slots := slots, shutdownAtSequence := shutdown } := ⟨_, _, rfl⟩
  cases uniStep_cases hs with
  | consumer hSpec hStep => exact h.consumer hWired hSpec hStep
  | producer hStep =>
    have hCall := fun op => hWired.consumerBarrier.sound h.consistent.represents op
    generalize hPc : s.producer.pc = pc at hOk
    cases hStep with
    | call hIdle hNext =>
      obtain ⟨hFlips, hSequence, hInFlight, hClear, hOk'⟩ := next hRange hNext _
      refine h.stay hSequence (by rw [hInFlight, hIdle]; rfl) ?_ hFlips hUnchanged hOk'
      rw [hClear]
      exact h.clear
    | slow hCheck hlt =>
      obtain rfl := hPc.symm.trans hCheck
      obtain ⟨hIn, hNext, hMax⟩ := hOk
      exact h.stay rfl (by rw [hPc]; rfl) h.clear rfl hUnchanged ⟨hIn, hNext, hMax, hCall _⟩
    | fast hCheck hle hClaim =>
      obtain rfl := hPc.symm.trans hCheck
      obtain ⟨hIn, hNext, hMax⟩ := hOk
      exact h.claim hIn hNext hMax (by rw [hPc]; rfl) h.clear hle hClaim
    | read hCheck hg =>
      obtain rfl := hPc.symm.trans hCheck
      obtain ⟨hIn, hNext, hMax, hSound⟩ := hOk
      have hSound' := (hSound.step h.consistent.represents (by omega)).1 _ hg
      exact h.stay rfl (by rw [hPc]; rfl) h.clear rfl hUnchanged ⟨hIn, hNext, hMax, hSound'⟩
    | answer hCheck hg =>
      obtain rfl := hPc.symm.trans hCheck
      obtain ⟨hIn, hNext, hMax, hSound⟩ := hOk
      have hPassed := (hSound.step h.consistent.represents (by omega)).2 _ hg
      exact h.stay rfl (by rw [hPc]; rfl) h.clear rfl hUnchanged ⟨hIn, hNext, hMax, hPassed⟩
    | overflow hCheck => exact h.stay rfl (by rw [hCheck]; rfl) h.clear rfl hUnchanged trivial
    | @refuse op nNext rear free _ _ hCheck hFree hlt hRefuse =>
      obtain rfl := hPc.symm.trans hCheck
      obtain ⟨hIn, -, -, -⟩ := hOk
      unfold UniProducer.refuse at hRefuse
      split at hRefuse
      · -- `publish` and `batch_publish` call `next_sequences` again
        rename_i hSpins
        generalize hNext : s.producer.nextSequences op = next at hRefuse
        obtain ⟨p'', es''⟩ := next
        obtain ⟨rfl, rfl⟩ := Prod.mk.inj hRefuse
        obtain ⟨hFlips, hSequence, hInFlight, hClear, hOk'⟩ := next hIn hNext _
        refine h.stay hSequence (by rw [hInFlight, hPc]; rfl) ?_ ?_ hUnchanged hOk'
        · rw [hClear]
          exact h.clear
        · simpa [Calvera.flips, Event.sequences] using hFlips
      · obtain ⟨rfl, rfl⟩ := Prod.mk.inj hRefuse
        exact h.stay rfl (by rw [hPc]; rfl) h.clear rfl hUnchanged trivial
    | @accept op nNext rear free clear _ _ hCheck hFree hle hClear hClaim =>
      obtain rfl := hPc.symm.trans hCheck
      obtain ⟨hIn, hNext, hMax, hPassed⟩ := hOk
      have hFree' := R.freeSlots_eq_some hFree
      obtain ⟨-, rfl⟩ := addI64_eq_some.mp hClear
      refine h.claim hIn hNext hMax (by rw [hPc]; rfl) (fun c hMem => ?_) (by omega) hClaim
      have : rear ≤ s.memory.consumerCursors c := h.consistent.inv.le_cursor hPassed hMem
      omega
    | update hUpdate =>
      obtain rfl := hPc.symm.trans hUpdate
      exact h.stay rfl (by rw [hPc]; rfl) h.clear rfl ⟨_, _, rfl⟩ hOk.1
    | unwindUpdate hUpdate =>
      obtain rfl := hPc.symm.trans hUpdate
      exact h.unwind hOk.1 (by rw [hPc]; rfl)
    | updatesEnd hUpdates hlt =>
      obtain rfl := hPc.symm.trans hUpdates
      exact h.stay rfl (by rw [hPc]; rfl) h.clear rfl hUnchanged hOk.1
    | @updatesNext op iter k hUpdates hle =>
      obtain rfl := hPc.symm.trans hUpdates
      obtain ⟨hIn, hLast, hCurrent, hk⟩ := hOk
      have hN := hIn.nI64
      refine h.stay rfl (by rw [hPc]; rfl) h.clear rfl ⟨_, _, rfl⟩ ⟨hIn, hLast, ?_, ?_⟩
      · show iter.current + 1 = s.producer.sequence + ((k + 1 : Nat) : Int)
        omega
      · omega
    | unwindEnd hUpdates hlt =>
      obtain rfl := hPc.symm.trans hUpdates
      exact h.unwind hOk.1 (by rw [hPc]; rfl)
    | unwindNext hUpdates hle =>
      obtain rfl := hPc.symm.trans hUpdates
      exact h.unwind hOk.1 (by rw [hPc]; rfl)
    | publish hPublish =>
      obtain rfl := hPc.symm.trans hPublish
      exact h.publish hOk (by rw [hPc]; rfl)
    | drop hIdle => exact h.stay rfl (by rw [hIdle]; rfl) h.clear rfl hUnchanged trivial
    | shutdown hShutdown =>
      exact h.stay rfl (by rw [hShutdown]; rfl) h.clear rfl ⟨_, _, rfl⟩ trivial
    | join hJoin _ => exact h.stay rfl (by rw [hJoin]; rfl) h.clear rfl hUnchanged trivial
    | joined hJoin => exact h.stay rfl (by rw [hJoin]; rfl) h.clear rfl hUnchanged trivial

end UniInv

/-- **The invariant holds in every reachable state.** -/
theorem UniRun.inv (hWired : Wired T .uniProducer w) {tr : List (Event E)} {s : UniSystem E}
    (h : UniRun R w factory tr s) : UniInv R T tr s :=
  h.induct (UniInv.init hWired) fun _ hInv hRange hs => hInv.step hWired hRange hs

/-- **The invariant rule on top of the invariant**: both ends of a step satisfy it. -/
theorem UniRun.rule (hWired : Wired T .uniProducer w) {P : List (Event E) → UniSystem E → Prop}
    (hInit : P [] (UniSystem.init R w factory))
    (hStep : ∀ {tr s act s' es}, UniRun R w factory tr s → UniInv R T tr s →
      UniInv R T (tr ++ es) s' → P tr s → UniSystemStep R w s act s' es → P (tr ++ es) s')
    {tr : List (Event E)} {s : UniSystem E} (h : UniRun R w factory tr s) : P tr s :=
  Run.induct hInit (fun hRun hP hRange hs =>
    have hInv := UniRun.inv hWired hRun
    hStep hRun hInv (hInv.step hWired hRange hs) hP (uniStep_cases hs)) h

/-- A step claims no more than the cached bound covers. -/
theorem UniStep.claimed_le_clear {barrier : Barrier} {handles : List Nat} {exited : Nat → Bool}
    {m m' : Memory E} {p p' : UniProducer E} {act : UniAct E} {es : List (Event E)} {a : State Nat}
    (hStep : UniStep R barrier handles exited m p act m' p' es) (hOk : p.pc.Ok R T a p.sequence)
    (hLe : p.claimed ≤ p.sequenceClearOfConsumers) :
    p'.claimed ≤ p'.sequenceClearOfConsumers := by
  have hNext : ∀ {q : UniProducer E} {op es'}, p.nextSequences op = (q, es') →
      p.sequence - 1 + 0 ≤ p.sequenceClearOfConsumers →
      q.claimed ≤ q.sequenceClearOfConsumers := by
    intro q op es' hq hIdle
    rcases UniProducer.nextSequences_cases hq with ⟨rfl, -⟩ | ⟨rfl, -, -⟩ <;>
      simpa [UniProducer.claimed, UniPc.inFlight] using hIdle
  have hClaim : ∀ {q : UniProducer E} {op nNext clear es'},
      UniProducer.claim { p with sequenceClearOfConsumers := clear } op nNext = (q, es') →
      p.sequence - 1 + op.nI64 ≤ clear → q.claimed ≤ q.sequenceClearOfConsumers := by
    intro q op nNext clear es' hq hle
    obtain ⟨rfl, -⟩ := Prod.mk.inj hq
    cases hBatch : op.isBatch <;> simpa [UniProducer.claimed, UniPc.inFlight, hBatch] using hle
  -- the program counter only decides what is in flight
  have hStay : ∀ {pc pc' : UniPc E}, p.pc = pc → pc'.inFlight = pc.inFlight →
      p.sequence - 1 + pc'.inFlight ≤ p.sequenceClearOfConsumers := by
    intro pc pc' hPc hSame
    rw [hSame, ← hPc]
    exact hLe
  have hBack : 0 ≤ p.pc.inFlight →
      p.sequence - 1 + 0 ≤ p.sequenceClearOfConsumers := by
    intro hNonneg
    rw [UniProducer.claimed] at hLe
    omega
  have hUnwind : ∀ {op : Op E} {pc : UniPc E}, p.pc = pc → pc.inFlight = op.nI64 →
      op.InRange → p.sequence - 1 + 0 ≤ p.sequenceClearOfConsumers := by
    intro op pc hPc hInFlight hRange
    refine hBack ?_
    rw [hPc, hInFlight, hRange.nI64]
    exact Int.natCast_nonneg _
  cases hStep with
  | call hPc hq => exact hNext hq (hBack (by rw [hPc]; exact le_refl _))
  | slow hPc _ => exact hStay hPc rfl
  | fast hPc hle hq =>
    rw [hPc] at hOk
    exact hClaim hq (hOk.2.1 ▸ hle)
  | read hPc _ => exact hStay hPc rfl
  | answer hPc _ => exact hStay hPc rfl
  | overflow hPc => exact hStay hPc rfl
  | refuse hPc _ _ hq =>
    unfold UniProducer.refuse at hq
    split at hq
    · generalize hn : p.nextSequences _ = next at hq
      obtain ⟨q, es'⟩ := next
      obtain ⟨rfl, -⟩ := Prod.mk.inj hq
      exact hNext hn (hBack (by rw [hPc]; exact le_refl _))
    · obtain ⟨rfl, -⟩ := Prod.mk.inj hq
      exact hStay hPc rfl
  | accept hPc _ hle hClear hq =>
    obtain ⟨-, rfl⟩ := addI64_eq_some.mp hClear
    exact hClaim hq (by omega)
  | update hPc => exact hStay hPc rfl
  | @unwindUpdate op _ hPc =>
    rw [hPc] at hOk
    exact hUnwind hPc rfl hOk.1
  | updatesEnd hPc _ => exact hStay hPc rfl
  | updatesNext hPc _ => exact hStay hPc rfl
  | unwindEnd hPc _ =>
    rw [hPc] at hOk
    exact hUnwind hPc rfl hOk.1
  | unwindNext hPc _ =>
    rw [hPc] at hOk
    exact hUnwind hPc rfl hOk.1
  | @publish op hPc =>
    rw [UniProducer.claimed, hPc] at hLe
    show p.sequence + op.nI64 - 1 + 0 ≤ p.sequenceClearOfConsumers
    have : p.sequence - 1 + op.nI64 ≤ p.sequenceClearOfConsumers := hLe
    omega
  | drop hPc => exact hStay hPc rfl
  | shutdown hPc => exact hStay hPc rfl
  | join hPc _ => exact hStay hPc rfl
  | joined hPc => exact hStay hPc rfl

/-- **What is claimed is covered by the cached bound.** -/
theorem UniRun.claimed_le_clear (hWired : Wired T .uniProducer w)
    {tr : List (Event E)} {s : UniSystem E}
    (hRun : UniRun R w factory tr s) :
    s.producer.claimed ≤ s.producer.sequenceClearOfConsumers := by
  refine UniRun.rule hWired (P := fun _ s => s.producer.claimed ≤
    s.producer.sequenceClearOfConsumers) ?_ (fun {_ s act s' es} _ hInv _ hLe hStep => ?_) hRun
  · show (0 : Int) - 1 + 0 ≤ R.sizeI64 - 1
    have := R.size_pos
    rw [R.sizeI64_eq]
    omega
  · cases hStep with
    | consumer => exact hLe
    | producer hStep => exact hStep.claimed_le_clear hInv.pc hLe

end Calvera
