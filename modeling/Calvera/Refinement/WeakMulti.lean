import Calvera.Refinement.Multi
import Calvera.Refinement.WeakConsumers

/-!
# Refinement — the cloneable producer on release/acquire memory

A handle may find old cursors of consumers, and then claims less, and an old
cursor of the producers, and then its compare-exchange fails: a read-modify-write
replaces the newest write. A handle alone writes to the sequences of its claim
(`HandleKnows.writers`), so a flip of a bit has to take along nothing but its own
writes, and what the flips of the word before took.

* `WeakMultiRun.inv` — the invariant holds in every reachable state.
-/

namespace Calvera

open Calvera.Lib Calvera.Lib.ReleaseAcquire Calvera.Protocol

variable {E : Type} {o : Orderings} {R : RingSize} {T : Topology Nat} {w : Wiring}
  {factory : Nat → E} {tr es : List (Event E)}

-- ---------------------------------------------------------------------------
-- With the newest values
-- ---------------------------------------------------------------------------

/-- A consumer that observes what has passed keeps the invariant. -/
theorem MultiInv.observe {s : MultiSystem E} {c : Nat} {pc' : ConsumerPc} (h : MultiInv R T tr s)
    (hMem : c ∈ T.members) (hEs : ∀ e ∈ es, e.OfConsumer)
    (hObs : Observes R T .multiProducer s (s.pipeline s.memory.cursor (publishedBy tr)) c pc') :
    MultiInv R T (tr ++ es) { s with consumers := Function.update s.consumers c pc' } := by
  obtain ⟨hClaims, hFlips, hNone⟩ := history_ofConsumer hEs
  have hFlips' : flips (tr ++ es) = flips tr := by rw [flips_append, hFlips, List.append_nil]
  have hPublished : publishedBy (tr ++ es) = publishedBy tr := by
    ext t
    rw [mem_publishedBy, mem_publishedBy, hFlips']
  have hLost : {t | Abandoned (tr ++ es) t} = {t | Abandoned tr t} := by
    ext t
    simp [hNone]
  obtain ⟨hConsistent, hLater⟩ := h.consistent.observe hMem hObs
  refine ⟨?_, ?_, ?_, h.clear, fun i => ?_, h.absent⟩
  · rw [hPublished]
    exact hConsistent
  · rw [hFlips', hLost]
    exact h.ledger
  · rw [claims_append, hClaims, List.append_nil]
    exact h.tiled
  · rw [hPublished]
    refine (h.handle i).later hLater (le_refl _) ?_ fun t _ => by rw [hFlips']
    rw [claims_append]
    exact List.subset_append_left _ _

theorem MultiInv.keeps (hWired : Wired T .multiProducer w) :
    Keeps (E := E) R T .multiProducer w (MultiInv R T) fun s => s.memory.cursor where
  claimed_congr _ hCursor := hCursor
  consistent h := h.consistent
  consumer h hSpec hStep := h.consumer hWired hSpec hStep
  observe h hMem hEs hObs := h.observe hMem hEs hObs

/-- The loop of `next_sequences` may start from an old value of the cursor. -/
theorem MultiInv.loop_old {s : MultiSystem E} {h : Nat} {p' : MultiProducer E} {op : Op E}
    {current : Int} (hInv : MultiInv R T tr s) (hName : h < s.producer.nextHandle)
    (hRange : op.InRange) (hOut : ∀ t, ¬ (s.producer.handles h).InFlight t) (hGe : -1 ≤ current)
    (hLe : current ≤ s.memory.cursor)
    (hLoop : (s.producer.handles h).loop h op current = (p', es)) :
    MultiInv R T (tr ++ es) { s with producer := s.producer.setHandle h p' } := by
  rcases MultiProducer.loop_cases hLoop with ⟨rfl, rfl⟩ | ⟨rfl, rfl, hIn⟩
  · exact hInv.wait hName hOut (fun _ ht => ht) rfl rfl (by simp [Abandoned]) (hInv.clear h) trivial
  · exact hInv.wait hName hOut (fun _ ht => ht) rfl rfl (by simp) (hInv.clear h)
      ⟨hRange, hGe, hLe, rfl, hIn.2⟩

/-- Inside the closure the claim in hand is owed. -/
theorem MultiProducer.Ok.owed {a : State Nat} {h : Nat} {p : MultiProducer E} {op : Op E} {t : Int}
    (hp : p.Ok R T a tr h) (hPc : p.pc = .update op ∨ ∃ iter k, p.pc = .updates op iter k)
    (ht : p.InFlight t) : t ∈ p.owed (flips tr) := by
  unfold Ok at hp
  rcases hPc with hPc | ⟨iter, k, hPc⟩ <;> simp only [hPc] at hp
  · exact ⟨ht, hp.2.2 t ht⟩
  · exact ⟨ht, hp.2.1 t ht⟩

/-- A clone starts from nothing. -/
theorem SharedProducers.clone_handles {ps ps' : SharedProducers E} {h : Nat}
    (hs : ps.clone h = some ps') :
    ps'.handles = Function.update ps.handles ps.nextHandle .cloned := by
  unfold clone at hs
  split at hs
  · split at hs <;> cases hs
    rfl
  · cases hs

/-- A dropped handle is gone, or is the last one. -/
theorem SharedProducers.drop_handles {ps ps' : SharedProducers E} {h : Nat}
    (hs : ps.drop h = some ps') : ∃ pc, (pc = .shutdownCurrent ∨ pc = .dropped) ∧
      ps'.handles = Function.update ps.handles h { ps.handles h with pc := pc } := by
  unfold drop at hs
  split at hs
  · split at hs <;> cases hs
    refine ⟨_, ?_, rfl⟩
    cases ps.counter == 1
    · exact .inr rfl
    · exact .inl rfl
  · cases hs

-- ---------------------------------------------------------------------------
-- What handles know
-- ---------------------------------------------------------------------------

/-- What a handle has read is sound in its picture. -/
def MultiPc.Reads (R : RingSize) (T : Topology Nat) (picture : State Nat) : MultiPc E → Prop
  | .getAfter _ last _ g => g.Sound R T .multiProducer picture (T.last + 1) last
  | .freeSlots _ _ _ rear => picture.Passed T (T.last + 1) rear
  | _ => True

theorem MultiPc.Reads.later {picture picture' : State Nat} {pc : MultiPc E}
    (h : pc.Reads R T picture) (hLater : picture.Later T picture') : pc.Reads R T picture' := by
  cases pc with
  | getAfter op current nNext g => exact GetAfter.Sound.later h hLater
  | freeSlots op current nNext rear =>
    have hPassed : picture.Passed T (T.last + 1) rear := h
    exact hPassed.later hLater
  | _ => trivial

/-- What handle `h` has seen and knows. -/
structure HandleKnows (R : RingSize) (T : Topology Nat) (M : AtomicMachine)
    (shown : Loc → Nat → Set Int) (h : Nat) (p : MultiProducer E) : Prop where
  /-- The acquire fence came with the cached bound. -/
  knows : Knows T Party.consumer? M.log (M.views (.handle h)).current (T.last + 1)
    (p.sequenceClearOfConsumers - R.size)
  reads : p.pc.Reads R T (seenState R .multiProducer M shown (.handle h))
  covered : ∀ t, p.InFlight t → t ≤ p.sequenceClearOfConsumers
  /-- The release fence came before the first flip. -/
  fenced : ∀ op r, p.pc = .publishRange op r →
    Informed M.log (M.views (.handle h)).released fun b => b.thread = .handle h
  /-- Nobody else has written to the claim in hand. -/
  writers : ∀ b ∈ M.log, b.thread.consumer? = none → p.InFlight b.target → b.thread = .handle h

/-- What others do leaves a handle its knowledge. -/
theorem HandleKnows.extend {M M' : AtomicMachine} {a : State Nat} {shown shown' : Loc → Nat → Set Int}
    {h : Nat} {p : MultiProducer E} {θ : Party} (hp : HandleKnows R T M shown h p)
    (hne : Party.handle h ≠ θ) (hLog : LogExtends T Party.consumer? a θ M.log M'.log)
    (hView : M'.views (.handle h) = M.views (.handle h)) (hInv : Inv T R.size a)
    (hPassed : a.Passed T (T.last + 1) (p.sequenceClearOfConsumers - R.size))
    (hLater : (seenState R .multiProducer M shown (.handle h)).Later T
      (seenState R .multiProducer M' shown' (.handle h)))
    (hApart : ∀ b ∈ M'.log, b ∈ M.log ∨ b.thread.consumer? ≠ none ∨ ¬ p.InFlight b.target) :
    HandleKnows R T M' shown' h p where
  knows := by
    rw [hView]
    exact hLog.knows hp.knows hInv hPassed (le_refl _)
  reads := hp.reads.later hLater
  covered := hp.covered
  fenced op r hPc := by
    rw [hView]
    exact hLog.informed (hp.fenced op r hPc) fun b hb => hb ▸ hne
  writers b hb hWriter hIn := by
    rcases hApart b hb with hOld | hReader | hOut
    · exact hp.writers b hOld hWriter hIn
    · exact absurd hWriter hReader
    · exact absurd hIn hOut

-- ---------------------------------------------------------------------------
-- Steps of a handle
-- ---------------------------------------------------------------------------

/-- The handle claims nothing more by going from `p` to `p'`. -/
structure Continues (R : RingSize) (T : Topology Nat) (picture : State Nat)
    (p p' : MultiProducer E) : Prop where
  clear : p'.sequenceClearOfConsumers = p.sequenceClearOfConsumers
  inFlight : ∀ t, p'.InFlight t → p.InFlight t
  reads : p'.pc.Reads R T picture
  range : ∀ op r, p'.pc = .publishRange op r → ∃ op' r', p.pc = .publishRange op' r'

/-- What a step of handle `h` to `p'` comes to; `picture` is what it has seen. -/
inductive MultiDoes (R : RingSize) (T : Topology Nat) (o : Orderings) (picture : State Nat)
    (flipped : List Int) (h : Nat) (m : Memory E) (p p' : MultiProducer E) (es : List (Event E)) :
    Option AtomicOp → Memory E → Prop
  | idle : p.loads R = none → flips es = [] → Continues R T picture p p' →
      MultiDoes R T o picture flipped h m p p' es none m
  /-- It starts over with the cursor it has found. -/
  | retry {op} : (p.pc = .current op ∨ ∃ current nNext, p.pc = .compareExchange op current nNext) →
      p.loop h op m.cursor = (p', es) → MultiDoes R T o picture flipped h m p p' es none m
  | shutdownCurrent : p.pc = .shutdownCurrent → p' = { p with pc := .shutdownStore (m.cursor + 1) } →
      es = [] → MultiDoes R T o picture flipped h m p p' es none m
  /-- It reads on, or has its answer. -/
  | scan {op current nNext g pc} : p.pc = .getAfter op current nNext g →
      ((∃ g', g.step R m = .inl g' ∧ pc = .getAfter op current nNext g') ∨
        ∃ rear, g.step R m = .inr rear ∧ pc = .freeSlots op current nNext rear) →
      p' = { p with pc } → es = [] → MultiDoes R T o picture flipped h m p p' es none m
  | accept {op current nNext rear} : p.pc = .freeSlots op current nNext rear → es = [] →
      p' = { p with
        sequenceClearOfConsumers := rear + R.size
        pc := .compareExchange op current nNext } →
      MultiDoes R T o picture flipped h m p p' es (some .acquireFence) m
  | claim {op current nNext} : p.pc = .compareExchange op current nNext → m.cursor = current →
      p.claim h op current nNext = (p', es) →
      MultiDoes R T o picture flipped h m p p' es
        (some (.exchange .cursor nNext o.cursorExchange o.cursorExchange)) (m.setCursor nNext)
  /-- It writes an event. -/
  | write (t : Int) (slots : Nat → E) : p.loads R = none → flips es = [] → t ∈ p.owed flipped →
      Continues R T picture p p' → (∀ op r, p'.pc ≠ .publishRange op r) →
      MultiDoes R T o picture flipped h m p p' es (some (.access t true)) { m with slots }
  /-- It begins to publish a batch. -/
  | fence {op iter k r} : p.pc = .updates op iter k → p' = { p with pc := .publishRange op r } →
      flips es = [] → MultiDoes R T o picture flipped h m p p' es (some .releaseFence) m
  /-- It flips bits of one word. -/
  | publish {index mask release} : p.loads R = some (.word index) →
      (∀ t ∈ flips es, p.InFlight t ∧ (R.calculateAvailabilityIndices t).1 = index) →
      release = true ∨ (∃ op r, p.pc = .publishRange op r) → Continues R T picture p p' →
      MultiDoes R T o picture flipped h m p p' es
        (some (.exchange (.word index) ((m.fetchXor index mask).available index) false release))
        (m.fetchXor index mask)
  | shutdownStore {sequence rest} : p.pc = .shutdownStore sequence →
      p' = { p with pc := .join rest } → flips es = [] →
      MultiDoes R T o picture flipped h m p p' es
        (some (.store .shutdownAtSequence sequence false)) (m.storeShutdown sequence)

/-- With nothing in hand there is nothing to keep. -/
theorem Continues.of_pc {picture : State Nat} {p : MultiProducer E} {pc : MultiPc E}
    (hOut : ∀ t, ¬ MultiProducer.InFlight { p with pc } t) (hReads : pc.Reads R T picture)
    (hRange : ∀ op r, pc ≠ .publishRange op r) : Continues R T picture p { p with pc } :=
  ⟨rfl, fun t ht => absurd ht (hOut t), hReads, fun op r hPc => absurd hPc (hRange op r)⟩

/-- Every step of a handle is one of these. -/
theorem MultiStep.does {barrier : Barrier} {joins : List Nat} {exited : Nat → Bool} {h : Nat}
    {picture a : State Nat} {m m' : Memory E} {p p' : MultiProducer E} {act : HandleAct E}
    (hStep : MultiStep R barrier joins exited h m p act m' p' es) (hMulti : o.multiFence = true)
    (hBatch : o.batchFence = true) (hPublish : o.publish = true) (hOk : p.Ok R T a tr h)
    (hCall : ∀ q, (barrier.getAfter q).Sound R T .multiProducer picture (T.last + 1) q) :
    MultiDoes R T o picture (flips tr) h m p p' es (p.performs o R m' p') m' := by
  -- what the closure writes is owed
  have hFirst : ∀ {op : Op E}, p.pc = .update op → p.claimedSequence ∈ p.owed (flips tr) := by
    intro op hPc
    refine hOk.owed (.inl hPc) ?_
    unfold MultiProducer.Ok at hOk
    simp only [hPc] at hOk
    have hOne := op.nI64_of_not_isBatch hOk.2.1
    unfold MultiProducer.InFlight
    simp only [hPc]
    omega
  have hNth : ∀ {op : Op E} {iter k}, p.pc = .updates op iter k → iter.current ≤ iter.last →
      iter.current ∈ p.owed (flips tr) := by
    intro op iter k hPc hle
    refine hOk.owed (.inr ⟨iter, k, hPc⟩) ?_
    unfold MultiProducer.Ok at hOk
    simp only [hPc] at hOk
    obtain ⟨-, -, hLast, hCurrent, -⟩ := hOk
    unfold MultiProducer.InFlight
    simp only [hPc]
    omega
  -- what is published was claimed
  have hLast : ∀ {op : Op E}, p.pc = .publish op → p.InFlight p.claimedSequence := by
    intro op hPc
    unfold MultiProducer.Ok at hOk
    simp only [hPc] at hOk
    have hOne := op.nI64_of_not_isBatch hOk.2.1
    unfold MultiProducer.InFlight
    simp only [hPc]
    omega
  have hCommitted : ∀ {op : Op E} {r index mask t}, p.pc = .publishRange op r →
      t ∈ r.committed R index mask → p.InFlight t ∧ (R.calculateAvailabilityIndices t).1 = index := by
    intro op r index mask t hPc ht
    obtain ⟨_, hC⟩ := hOk.committing hPc
    obtain ⟨hIn, hBits⟩ := List.mem_filter.mp ht
    have hBounds := mem_seqRange.mp hIn
    rw [Bool.and_eq_true, beq_iff_eq] at hBits
    exact ⟨hC.inFlight.mpr ⟨hBounds.1, by omega⟩, hBits.1⟩
  -- the claim in hand stays as it is
  have hSame : ∀ {pc pc' : MultiPc E}, p.pc = pc → (∀ t,
      MultiProducer.InFlight { p with pc := pc' } t → MultiProducer.InFlight { p with pc } t) →
      pc'.Reads R T picture → (∀ op r, pc' = .publishRange op r → ∃ op' r', pc = .publishRange op' r') →
      Continues R T picture p { p with pc := pc' } := by
    rintro pc pc' rfl hIn hReads hRange
    exact ⟨rfl, hIn, hReads, hRange⟩
  cases hStep with
  | call hPc =>
    rw [show p.performs o R m _ = none by simp [MultiProducer.performs, hPc]]
    exact .idle (by rw [MultiProducer.loads, hPc]) rfl (.of_pc (fun _ ht => ht) trivial (by simp))
  | load hPc hLoop =>
    rw [show p.performs o R m _ = none by simp [MultiProducer.performs, hPc]]
    exact .retry (.inl hPc) hLoop
  | slow hPc _ =>
    rw [show p.performs o R m _ = none by simp [MultiProducer.performs, hPc]]
    exact .idle (by rw [MultiProducer.loads, hPc]) rfl
      (.of_pc (fun _ ht => ht) (hCall _) (by simp))
  | fast hPc _ =>
    rw [show p.performs o R m _ = none by simp [MultiProducer.performs, hPc]]
    exact .idle (by rw [MultiProducer.loads, hPc]) rfl (.of_pc (fun _ ht => ht) trivial (by simp))
  | read hPc hg =>
    rw [show p.performs o R m _ = none by simp [MultiProducer.performs, hPc]]
    exact .scan hPc (.inl ⟨_, hg, rfl⟩) rfl rfl
  | answer hPc hg =>
    rw [show p.performs o R m _ = none by simp [MultiProducer.performs, hPc]]
    exact .scan hPc (.inr ⟨_, hg, rfl⟩) rfl rfl
  | overflow hPc =>
    rw [show p.performs o R m _ = none by simp [MultiProducer.performs, hPc]]
    exact .idle (by rw [MultiProducer.loads, hPc]) rfl (.of_pc (fun _ ht => ht) trivial (by simp))
  | refuse hPc _ _ hRefuse =>
    unfold MultiProducer.refuse at hRefuse
    split at hRefuse <;> obtain ⟨rfl, rfl⟩ := Prod.mk.inj hRefuse <;>
      rw [show p.performs o R m _ = none by simp [MultiProducer.performs, hPc]] <;>
      exact .idle (by rw [MultiProducer.loads, hPc]) rfl (.of_pc (fun _ ht => ht) trivial (by simp))
  | @accept op current nNext rear free clear hPc hFree _ hClear =>
    have hFree' := R.freeSlots_eq_some hFree
    obtain ⟨-, rfl⟩ := addI64_eq_some.mp hClear
    rw [show p.performs o R m _ = some .acquireFence by
      simp [MultiProducer.performs, hPc, fence, hMulti]]
    refine .accept hPc rfl ?_
    rw [show current + free = rear + R.size by omega]
  | @claim op current nNext _ _ hPc hEq hClaim =>
    have hPerforms : p.performs o R (m.setCursor nNext) p' =
        some (.exchange .cursor nNext o.cursorExchange o.cursorExchange) := by
      obtain ⟨rfl, -⟩ := Prod.mk.inj hClaim
      cases hOne : op.isBatch <;> simp [MultiProducer.performs, hPc, Memory.setCursor]
    rw [hPerforms]
    exact .claim hPc hEq hClaim
  | retry hPc _ hLoop =>
    have hPerforms : p.performs o R m p' = none := by
      rcases MultiProducer.loop_cases hLoop with ⟨rfl, -⟩ | ⟨rfl, -, -⟩ <;>
        simp [MultiProducer.performs, hPc]
    rw [hPerforms]
    exact .retry (.inr ⟨_, _, hPc⟩) hLoop
  | @update op hPc =>
    rw [show p.performs o R _ _ = some (.access p.claimedSequence true) by
      simp [MultiProducer.performs, hPc]]
    exact .write _ _ (by rw [MultiProducer.loads, hPc]) rfl (hFirst hPc)
      (hSame hPc (fun _ ht => ht) trivial (by simp)) (by simp)
  | @unwindUpdate op event hPc =>
    rw [show p.performs o R _ _ = some (.access p.claimedSequence true) by
      simp [MultiProducer.performs, hPc]]
    exact .write _ _ (by rw [MultiProducer.loads, hPc]) rfl (hFirst hPc)
      (.of_pc (fun _ ht => ht) trivial (by simp)) (by simp)
  | updatesEnd hPc hlt =>
    rw [show p.performs o R m _ = some .releaseFence by
      simp [MultiProducer.performs, hPc, fence, hBatch]]
    exact .fence hPc rfl rfl
  | @updatesNext op iter k hPc hle =>
    rw [show p.performs o R _ _ = some (.access iter.current true) by
      simp [MultiProducer.performs, hPc, hle]]
    exact .write _ _ (by rw [MultiProducer.loads, hPc]) rfl (hNth hPc hle)
      (hSame hPc (fun _ ht => ht) trivial (by simp)) (by simp)
  | unwindEnd hPc hlt =>
    rw [show p.performs o R m _ = none by
      simp [MultiProducer.performs, hPc, Int.not_le.mpr hlt]]
    exact .idle (by rw [MultiProducer.loads, hPc]) rfl (.of_pc (fun _ ht => ht) trivial (by simp))
  | @unwindNext op iter k event hPc hle =>
    rw [show p.performs o R _ _ = some (.access iter.current true) by
      simp [MultiProducer.performs, hPc, hle]]
    exact .write _ _ (by rw [MultiProducer.loads, hPc]) rfl (hNth hPc hle)
      (.of_pc (fun _ ht => ht) trivial (by simp)) (by simp)
  | @publish op index mask hPc hMask =>
    have hIndex : (publishMask R p.claimedSequence).1 = index := by rw [hMask]
    rw [show p.performs o R _ _ =
        some (.exchange (.word index) ((m.fetchXor index mask).available index) false true) by
      simp [MultiProducer.performs, hPc, hIndex, hPublish]]
    refine .publish (by rw [MultiProducer.loads, hPc, hIndex]) (fun t ht => ?_) (.inl rfl)
      (.of_pc (fun _ ht => ht) trivial (by simp))
    obtain rfl : t = p.claimedSequence := by simpa [flips, Event.sequences] using ht
    exact ⟨hLast hPc, hIndex⟩
  | @mask op r r' hPc hRange =>
    rw [show p.performs o R m _ = none by simp [MultiProducer.performs, hPc, hRange]]
    exact .idle (by simp [MultiProducer.loads, hPc, hRange]) rfl
      (hSame hPc (fun _ ht => ht) trivial fun _ _ _ => ⟨op, r, rfl⟩)
  | @commit op r r' index mask hPc hRange =>
    rw [show p.performs o R _ _ =
        some (.exchange (.word index) ((m.fetchXor index mask).available index) false false) by
      simp [MultiProducer.performs, hPc, hRange]]
    refine .publish (by simp [MultiProducer.loads, hPc, hRange]) (fun t ht => ?_)
      (.inr ⟨op, r, hPc⟩) (hSame hPc (fun _ ht => ht) trivial fun _ _ _ => ⟨op, r, rfl⟩)
    exact hCommitted hPc (by simpa [flips, Event.sequences] using ht)
  | @commitEnd op r index mask hPc hRange =>
    rw [show p.performs o R _ _ =
        some (.exchange (.word index) ((m.fetchXor index mask).available index) false false) by
      simp [MultiProducer.performs, hPc, hRange]]
    refine .publish (by simp [MultiProducer.loads, hPc, hRange]) (fun t ht => ?_)
      (.inr ⟨op, r, hPc⟩) (.of_pc (fun _ ht => ht) trivial (by simp))
    exact hCommitted hPc (by simpa [flips, Event.sequences] using ht)
  | @rangeEnd op r hPc hRange =>
    rw [show p.performs o R m _ = none by simp [MultiProducer.performs, hPc, hRange]]
    exact .idle (by simp [MultiProducer.loads, hPc, hRange]) rfl
      (.of_pc (fun _ ht => ht) trivial (by simp))
  | shutdownCurrent hPc =>
    rw [show p.performs o R m _ = none by simp [MultiProducer.performs, hPc]]
    exact .shutdownCurrent hPc rfl rfl
  | @shutdownStore sequence hPc =>
    rw [show p.performs o R _ _ = some (.store .shutdownAtSequence sequence false) by
      simp [MultiProducer.performs, hPc, Memory.storeShutdown]]
    exact .shutdownStore hPc rfl rfl
  | join hPc _ =>
    rw [show p.performs o R m _ = none by simp [MultiProducer.performs, hPc]]
    exact .idle (by rw [MultiProducer.loads, hPc]) rfl (.of_pc (fun _ ht => ht) trivial (by simp))
  | joined hPc =>
    rw [show p.performs o R m _ = none by simp [MultiProducer.performs, hPc]]
    exact .idle (by rw [MultiProducer.loads, hPc]) rfl (.of_pc (fun _ ht => ht) trivial (by simp))

-- ---------------------------------------------------------------------------
-- The invariant
-- ---------------------------------------------------------------------------

/-- The state of the pipeline with the newest values. -/
abbrev WeakMultiSystem.pipeline (s : WeakMultiSystem E) (tr : List (Event E)) : State Nat :=
  s.state (fun s => s.memory.cursor) tr

/-- The invariant on release/acquire memory. -/
structure WeakMultiInv (R : RingSize) (T : Topology Nat) (tr : List (Event E))
    (s : WeakMultiSystem E) (shown : Loc → Nat → Set Int) : Prop extends
    WeakInv R T .multiProducer (MultiInv R T) (fun s => s.memory.cursor) tr s shown where
  handles : ∀ h, HandleKnows R T s.machine shown h (s.producer.handles h)
  cursors : ∀ (k : Nat) (message : Message Int),
    (s.machine.history .cursor).messages[k]? = some message →
      -1 ≤ message.value ∧ message.value ≤ s.machine.newest .cursor
  targets : ∀ b ∈ s.machine.log, 0 ≤ b.target ∧ b.target ≤ s.machine.newest .cursor

namespace WeakMultiInv

variable {s s' : WeakMultiSystem E} {shown shown' : Loc → Nat → Set Int} {M M' : AtomicMachine}
  {p' : MultiProducer E} {slots' : Nat → E} {i : Nat}

theorem inv (h : WeakMultiInv R T tr s shown) : Inv T R.size (s.pipeline tr) :=
  h.latest.consistent.inv

/-- One round before a cached bound everything has passed. -/
theorem passed (h : WeakMultiInv R T tr s shown) (i : Nat) : (s.pipeline tr).Passed T (T.last + 1)
    ((s.producer.handles i).sequenceClearOfConsumers - R.size) := by
  intro c hMem _
  have : (s.producer.handles i).sequenceClearOfConsumers ≤ s.memory.consumerCursors c + R.size :=
    h.latest.clear i c hMem
  show _ ≤ s.memory.consumerCursors c
  omega

/-- What `build` returns. -/
theorem init (h64 : 64 ∣ R.size) (hWired : Wired T .multiProducer w) :
    ∃ shown, WeakMultiInv R T [] (WeakMultiSystem.init R w factory) shown := by
  have hInv : MultiInv R T [] (MultiSystem.init R w factory) := .init h64 hWired
  have hHandles : ∀ h, (WeakMultiSystem.init R w factory).producer.handles h =
      if h = 0 then .new R else .none := fun h => by
    simp [WeakMultiSystem.init, WeakSystem.init, SharedProducers.new, Function.update_apply]
  refine ⟨_, .init (MultiInv.keeps hWired) (.inr ⟨rfl, h64⟩) hWired factory _ hInv, fun h => ?_,
    fun k message hm => ?_, fun b hb => ?_⟩
  · rw [hHandles]
    refine ⟨fun i b hi => ?_, ?_, fun t ht => ?_, fun op r hPc => ?_, fun b hb => ?_⟩
    · simp [WeakMultiSystem.init, WeakSystem.init, Machine.init] at hi
    · split <;> exact trivial
    · split at ht <;> exact ht.elim
    · split at hPc <;> cases hPc
    · simp [WeakMultiSystem.init, WeakSystem.init, Machine.init] at hb
  · have hMem := List.mem_of_getElem? hm
    obtain rfl : message = ⟨NONE, ∅⟩ := by
      simpa [WeakMultiSystem.init, WeakSystem.init, Machine.init, History.messages,
        Loc.initial] using hMem
    exact ⟨le_refl _, le_refl _⟩
  · simp [WeakMultiSystem.init, WeakSystem.init, Machine.init] at hb

/-- A step of a consumer. -/
theorem undisturbed (h : WeakMultiInv R T tr s shown)
    (hMoved : WeakInv R T .multiProducer (MultiInv R T) (fun s => s.memory.cursor) (tr ++ es) s'
      shown')
    {c : Nat} (hRest : Undisturbed T (fun s : MultiSystem E => s.memory.cursor) c tr (tr ++ es) s s'
      shown shown') : WeakMultiInv R T (tr ++ es) s' shown' := by
  have hNewest : s'.machine.newest .cursor = s.machine.newest .cursor := by
    rw [Machine.newest, Machine.newest, hRest.cursor]
  refine ⟨hMoved, fun i => ?_, ?_, fun b hb => ?_⟩
  · rw [hRest.producer]
    refine (h.handles i).extend (by simp) hRest.log (hRest.handles i) h.inv (h.passed i)
      (h.messages.seenState_later hMoved.messages hRest.extend _) fun b hb => ?_
    rcases hRest.log.mem hb with hb | ⟨hThread, -⟩
    · exact .inl hb
    · exact .inr (.inl (by simp [hThread, Party.consumer?]))
  · rw [hNewest, hRest.cursor]
    exact h.cursors
  · rw [hNewest]
    rcases hRest.log.mem hb with hb | ⟨hThread, hAllowed⟩
    · exact h.targets b hb
    · obtain ⟨hMem, hlt, hle⟩ := hAllowed.reader (c := c) rfl
      have hPos : -1 < b.target := lt_of_le_of_lt (h.inv.cursor_ge c hMem) hlt
      exact ⟨by omega, hle.trans (h.inv.granted_le_claimed hMem)⟩

/-- **A step of handle `i`** is nothing to the others, when it is allowed. -/
theorem handled (hWired : Wired T .multiProducer w) (h : WeakMultiInv R T tr s shown)
    {producer : SharedProducers E}
    (hLatest : MultiInv R T (tr ++ es)
      (WeakSystem.latest { s with machine := M', slots := slots', producer := producer }))
    (hMessages : Messages R T .multiProducer M' (WeakMultiSystem.pipeline
      { s with machine := M', slots := slots', producer := producer } (tr ++ es)) shown')
    (hExt : Extends s.machine M' shown shown')
    (hLog : M'.log = s.machine.log ∨ ∃ access, access.thread = .handle i ∧
      access.target ∈ (s.producer.handles i).owed (flips tr) ∧ M'.log = s.machine.log ++ [access])
    (hOthers : ∀ θ ≠ .handle i, M'.views θ = s.machine.views θ)
    (hCursors : ∀ c, M'.history (.consumerCursor c) = s.machine.history (.consumerCursor c))
    (hCursor : ∀ (k : Nat) (message : Message Int),
      (M'.history .cursor).messages[k]? = some message →
        -1 ≤ message.value ∧ message.value ≤ M'.newest .cursor)
    (hLe : s.machine.newest .cursor ≤ M'.newest .cursor)
    (hHandles : ∀ j ≠ i, producer.handles j = s.producer.handles j)
    (hMine : HandleKnows R T M' shown' i (producer.handles i)) :
    WeakMultiInv R T (tr ++ es) { s with machine := M', slots := slots', producer := producer }
      shown' := by
  have hOwed : ∀ b ∈ M'.log, b ∈ s.machine.log ∨
      b.target ∈ (s.producer.handles i).owed (flips tr) := by
    intro b hb
    rcases hLog with hSame | ⟨access, -, hMem, hNew⟩
    · exact .inl (hSame ▸ hb)
    · rw [hNew] at hb
      rcases List.mem_append.mp hb with hb | hb
      · exact .inl hb
      · rw [List.mem_singleton.mp hb]
        exact .inr hMem
  have hExtends : LogExtends T Party.consumer? (s.pipeline tr) (.handle i) s.machine.log M'.log := by
    rcases hLog with hSame | ⟨access, hThread, hMem, hNew⟩
    · exact .inl hSame
    · refine .inr ⟨access, hThread, ⟨h.latest.owed_fresh hMem, ?_⟩, hNew⟩
      exact (h.latest.ledger.owed_bounds i _ hMem).2
  have hMoved := h.produced (MultiInv.keeps hWired) hLatest hMessages hExt hExtends
    (fun c => hOthers _ (by simp)) hCursors
  refine ⟨hMoved, fun j => ?_, hCursor, fun b hb => ?_⟩
  · rcases eq_or_ne j i with rfl | hne
    · exact hMine
    · show HandleKnows R T M' shown' j (producer.handles j)
      rw [hHandles j hne]
      refine (h.handles j).extend (by simpa using hne) hExtends (hOthers _ (by simpa using hne)) h.inv
        (h.passed j) (h.messages.seenState_later hMessages hExt _) fun b hb => ?_
      -- no two handles owe the same sequence
      refine (hOwed b hb).imp_right fun hMem => .inr fun hIn => hne ?_
      exact h.latest.ledger.owed_unique j i b.target ⟨hIn, hMem.2⟩ hMem
  · rcases hOwed b hb with hOld | hMem
    · have := h.targets b hOld
      exact ⟨this.1, this.2.trans hLe⟩
    · have := h.latest.ledger.owed_bounds i _ hMem
      exact ⟨this.1, this.2.trans hLe⟩

/-- A step of a handle that writes no atomic. -/
theorem quiet (hWired : Wired T .multiProducer w) (h : WeakMultiInv R T tr s shown)
    {producer : SharedProducers E}
    (hLatest : MultiInv R T (tr ++ es)
      { s.latest with memory := { s.memory with slots := slots' }, producer := producer })
    (hFlips : flips es = []) (hHistory : M'.history = s.machine.history)
    (hGrows : Grows s.machine M') (hOthers : ∀ θ ≠ .handle i, M'.views θ = s.machine.views θ)
    (hMessages : Messages R T .multiProducer M' (s.pipeline tr) shown)
    (hLog : M'.log = s.machine.log ∨ ∃ access, access.thread = .handle i ∧
      access.target ∈ (s.producer.handles i).owed (flips tr) ∧ M'.log = s.machine.log ++ [access])
    (hHandles : ∀ j ≠ i, producer.handles j = s.producer.handles j)
    (hMine : HandleKnows R T M' shown i (producer.handles i)) :
    WeakMultiInv R T (tr ++ es) { s with machine := M', slots := slots', producer := producer }
      shown := by
  have hNewest : M'.newest = s.machine.newest := by
    funext x
    rw [Machine.newest, Machine.newest, hHistory]
  have hSame : WeakSystem.latest { s with machine := M', slots := slots', producer := producer } =
      { s.latest with memory := { s.memory with slots := slots' }, producer := producer } := by
    simp only [WeakSystem.latest, WeakSystem.memory, hNewest]
    rfl
  have hPublished : publishedBy (tr ++ es) = publishedBy tr := by
    ext t
    simp [hFlips]
  refine h.handled hWired (hSame ▸ hLatest) (hMessages.congr hPublished ?_)
    ⟨hGrows, fun _ _ _ => rfl⟩ hLog hOthers (fun c => by rw [hHistory]) ?_ (by rw [hNewest]) hHandles
    hMine
  · funext c
    exact congrFun hNewest (.consumerCursor c)
  · rw [hNewest, hHistory]
    exact h.cursors

/-- A step that neither loads nor performs anything. -/
theorem idle (hWired : Wired T .multiProducer w) (h : WeakMultiInv R T tr s shown)
    (hLatest : MultiInv R T (tr ++ es) { s.latest with producer := s.producer.setHandle i p' })
    (hFlips : flips es = [])
    (hGoes : Continues R T (seenState R .multiProducer s.machine shown (.handle i))
      (s.producer.handles i) p') :
    WeakMultiInv R T (tr ++ es) { s with producer := s.producer.setHandle i p' } shown := by
  have hMine := h.handles i
  refine h.quiet (i := i) hWired hLatest hFlips rfl (.refl _) (fun _ _ => rfl) h.messages (.inl rfl)
    (fun j hne => by rw [SharedProducers.setHandle_handles, if_neg hne]) ?_
  rw [SharedProducers.setHandle_handles, if_pos rfl]
  refine ⟨hGoes.clear ▸ hMine.knows, hGoes.reads, fun t ht => ?_, fun op r hPc => ?_,
    fun b hb hWriter ht => hMine.writers b hb hWriter (hGoes.inFlight _ ht)⟩
  · rw [hGoes.clear]
    exact hMine.covered t (hGoes.inFlight t ht)
  · obtain ⟨op', r', hPc'⟩ := hGoes.range op r hPc
    exact hMine.fenced op' r' hPc'

/-- A step that loads an atomic, with no claim in hand. -/
theorem loaded (hWired : Wired T .multiProducer w) (h : WeakMultiInv R T tr s shown)
    {loads : Option Loc} {m : Memory E} (hLoaded : Loaded s (.handle i) loads M m) {pc : MultiPc E}
    (hLatest : MultiInv R T (tr ++ es)
      { s.latest with producer := s.producer.setHandle i { s.producer.handles i with pc } })
    (hFlips : flips es = [])
    (hReads : pc.Reads R T (seenState R .multiProducer M shown (.handle i)))
    (hOut : ∀ t, ¬ MultiProducer.InFlight { s.producer.handles i with pc } t)
    (hRange : ∀ op r, pc ≠ .publishRange op r) :
    WeakMultiInv R T (tr ++ es)
      { s with
        machine := M
        slots := m.slots
        producer := s.producer.setHandle i { s.producer.handles i with pc } } shown := by
  have hMine := h.handles i
  rw [hLoaded.slots]
  refine h.quiet (i := i) hWired hLatest hFlips hLoaded.history hLoaded.grows hLoaded.others
    (h.messages.views hLoaded.history hLoaded.log hLoaded.wellFormed) (.inl hLoaded.log)
    (fun j hne => by rw [SharedProducers.setHandle_handles, if_neg hne]) ?_
  rw [SharedProducers.setHandle_handles, if_pos rfl]
  refine ⟨?_, hReads, fun t ht => absurd ht (hOut t), fun op r hPc => absurd hPc (hRange op r),
    fun b _ _ ht => absurd ht (hOut _)⟩
  rw [hLoaded.log, hLoaded.current]
  exact hMine.knows

/-- **Writing** an event of the claim races with no access. -/
theorem write (hWired : Wired T .multiProducer w) (h : WeakMultiInv R T tr s shown) {t : Int}
    (hOwed : t ∈ (s.producer.handles i).owed (flips tr))
    (hPerform : s.machine.perform (.handle i) (.access t true) = some M')
    (hLatest : MultiInv R T (tr ++ es)
      { s.latest with
        memory := { s.memory with slots := slots' }
        producer := s.producer.setHandle i p' })
    (hFlips : flips es = [])
    (hGoes : Continues R T (seenState R .multiProducer s.machine shown (.handle i))
      (s.producer.handles i) p') (hRange : ∀ op r, p'.pc ≠ .publishRange op r) :
    WeakMultiInv R T (tr ++ es)
      { s with machine := M', slots := slots', producer := s.producer.setHandle i p' } shown := by
  have hMine := h.handles i
  have hAllowed : Allowed T Party.consumer? (s.pipeline tr) (.handle i) t :=
    ⟨h.latest.owed_fresh hOwed, (h.latest.ledger.owed_bounds i t hOwed).2⟩
  have hOwn : Informed s.machine.log (s.machine.views (.handle i)).current fun b =>
      b.thread.consumer? = none ∧ b.target = t := by
    rintro k b hk ⟨hWriter, rfl⟩
    exact h.messages.wellFormed.own _ k b hk
      (hMine.writers b (List.mem_of_getElem? hk) hWriter hOwed.1)
  have hKnown := h.messages.logged.write h.inv R.pos hAllowed rfl hMine.knows
    (by have := hMine.covered t hOwed.1; omega) hOwn
  have hAccess := h.messages.access h.inv hPerform hAllowed (by simp [Party.consumer?])
    (hKnown.mono (Finset.Subset.refl _) fun b hb => by rw [← R.slot_eq, ← R.slot_eq]; exact hb.1)
  have hGrows := Grows.perform h.messages.wellFormed hPerform
  have hOthers := fun θ (hne : θ ≠ Party.handle i) => Machine.perform_others hPerform hne
  obtain rfl := Option.some.inj hPerform
  have hLog : LogExtends T Party.consumer? (s.pipeline tr) (.handle i) s.machine.log
      (s.machine.log ++ [⟨.handle i, t, true, (s.machine.views (.handle i)).current⟩]) :=
    .inr ⟨_, rfl, hAllowed, rfl⟩
  refine h.quiet (i := i) hWired hLatest hFlips rfl hGrows hOthers hAccess
    (.inr ⟨_, rfl, hOwed, rfl⟩)
    (fun j hne => by rw [SharedProducers.setHandle_handles, if_neg hne]) ?_
  rw [SharedProducers.setHandle_handles, if_pos rfl]
  refine ⟨?_, ?_, fun t' ht' => ?_, fun op r hPc => absurd hPc (hRange op r), fun b hb hWriter ht' => ?_⟩
  · rw [hGoes.clear]
    exact (hLog.knows hMine.knows h.inv (h.passed i) (le_refl _)).mono (hGrows.current _) (le_refl _)
  · exact hGoes.reads.later (h.messages.seenState_later hAccess ⟨hGrows, fun _ _ _ => rfl⟩ _)
  · rw [hGoes.clear]
    exact hMine.covered t' (hGoes.inFlight t' ht')
  · exact (hLog.mem hb).elim (fun hb => hMine.writers b hb hWriter (hGoes.inFlight _ ht'))
      fun hb => hb.1

/-- A step of a handle that writes an atomic. -/
theorem pushed (hWired : Wired T .multiProducer w) (h : WeakMultiInv R T tr s shown) (x : Loc)
    (message : Message x.Value) (hx : ∀ c, x ≠ .consumerCursor c)
    (hHistory : M'.history = Function.update s.machine.history x
      ((s.machine.history x).push message))
    (hLog : M'.log = s.machine.log) (hWf : WellFormed M') (hGrows : Grows s.machine M')
    (hOthers : ∀ θ ≠ .handle i, M'.views θ = s.machine.views θ)
    (hLatest : MultiInv R T (tr ++ es) (WeakSystem.latest
      { s with machine := M', slots := slots', producer := s.producer.setHandle i p' }))
    (hNew : ∀ t ∈ flips es, Barrier.multiProducer.shownAt R t = x)
    (hShows : Barrier.multiProducer.Shows R (publishedBy (tr ++ es)) x message.value)
    (hWrites : ∀ t ∈ publishedBy (tr ++ es), Barrier.multiProducer.shownAt R t = x →
      Informed s.machine.log message.released fun b =>
        b.thread.consumer? = none ∧ b.target = t)
    (hCursor : ∀ (k : Nat) (message : Message Int),
      (M'.history .cursor).messages[k]? = some message →
        -1 ≤ message.value ∧ message.value ≤ M'.newest .cursor)
    (hLe : s.machine.newest .cursor ≤ M'.newest .cursor)
    (hClear : p'.sequenceClearOfConsumers = (s.producer.handles i).sequenceClearOfConsumers)
    (hReads : p'.pc.Reads R T (seenState R .multiProducer s.machine shown (.handle i)))
    (hCovered : ∀ t, p'.InFlight t → t ≤ p'.sequenceClearOfConsumers)
    (hFenced : ∀ op r, p'.pc = .publishRange op r →
      Informed s.machine.log (M'.views (.handle i)).released fun b => b.thread = .handle i)
    (hWriters : ∀ b ∈ s.machine.log, b.thread.consumer? = none → p'.InFlight b.target →
      b.thread = .handle i) :
    ∃ shown', WeakMultiInv R T (tr ++ es)
      { s with machine := M', slots := slots', producer := s.producer.setHandle i p' } shown' := by
  have hCursors : ∀ c, M'.history (.consumerCursor c) = s.machine.history (.consumerCursor c) := by
    intro c
    rw [hHistory, Function.update_of_ne (hx c).symm]
  have hPublished : publishedBy tr ⊆ publishedBy (tr ++ es) := by
    intro t ht
    rw [mem_publishedBy] at ht ⊢
    rw [flips_append, List.mem_append]
    exact ht.imp_right .inl
  have hSame : (WeakMultiSystem.pipeline
      { s with machine := M', slots := slots', producer := s.producer.setHandle i p' }
        (tr ++ es)).cursor = (s.pipeline tr).cursor := by
    funext c
    show M'.newest (.consumerCursor c) = s.machine.newest (.consumerCursor c)
    rw [Machine.newest, Machine.newest, hCursors]
  have hFresh : ∀ t ∈ publishedBy (tr ++ es), t ∉ publishedBy tr →
      Barrier.multiProducer.shownAt R t = x := by
    intro t ht hOld
    rw [mem_publishedBy, not_or] at hOld
    rw [mem_publishedBy, flips_append, List.mem_append] at ht
    exact hNew t ((ht.resolve_left hOld.1).resolve_left hOld.2)
  obtain ⟨shown', hMessages, hExt⟩ := h.messages.publish
    (WeakMultiSystem.pipeline
      { s with machine := M', slots := slots', producer := s.producer.setHandle i p' } (tr ++ es))
    hx hHistory hLog hWf hGrows hPublished hSame hFresh hShows hWrites
  refine ⟨shown', h.handled (i := i) hWired hLatest hMessages hExt (.inl hLog) hOthers hCursors
    hCursor hLe (fun j hne => by rw [SharedProducers.setHandle_handles, if_neg hne]) ?_⟩
  rw [SharedProducers.setHandle_handles, if_pos rfl]
  refine ⟨?_, hReads.later (h.messages.seenState_later hMessages hExt _), hCovered, ?_, ?_⟩
  · rw [hLog, hClear]
    exact (h.handles i).knows.mono (hGrows.current _) (le_refl _)
  · rw [hLog]
    exact hFenced
  · rw [hLog]
    exact hWriters

/-- A successful compare-exchange of the cursor. -/
theorem claimed (hWired : Wired T .multiProducer w) (h : WeakMultiInv R T tr s shown) {op : Op E}
    {current nNext : Int} {acquire release : Bool} {m : Memory E}
    (hLoaded : Loaded s (.handle i) (some .cursor) M m)
    (hPc : (s.producer.handles i).pc = .compareExchange op current nNext)
    (hEq : s.memory.cursor = current)
    (hPerform : M.perform (.handle i) (.exchange .cursor nNext acquire release) = some M')
    (hClaim : (s.producer.handles i).claim i op current nNext = (p', es))
    (hLatest : MultiInv R T (tr ++ es)
      { s.latest with
        memory := s.memory.setCursor nNext
        producer := s.producer.setHandle i p' }) :
    ∃ shown', WeakMultiInv R T (tr ++ es)
      { s with machine := M', producer := s.producer.setHandle i p' } shown' := by
  have hOk := h.latest.handle i
  unfold MultiProducer.Ok at hOk
  simp only [WeakSystem.latest, hPc] at hOk
  obtain ⟨hTarget, hClear⟩ := hOk
  have hNext := hTarget.next
  have hN := hTarget.inRange.nI64
  have hGe := hTarget.ge
  have hNewest : current = s.machine.newest .cursor := hEq.symm
  obtain ⟨-, hLog, released, hHistory, -, -⟩ := Machine.perform_exchange hPerform
  rw [hLoaded.history] at hHistory
  have hGrows := hLoaded.grows.trans (Grows.perform hLoaded.wellFormed hPerform)
  have hOthers := fun θ (hne : θ ≠ Party.handle i) =>
    (Machine.perform_others hPerform hne).trans (hLoaded.others θ hne)
  have hNow : nNext = M'.newest .cursor := by
    rw [Machine.newest_of_history hHistory, Function.update_self]
  have hInFlight : ∀ t, p'.InFlight t → current < t ∧ t ≤ nNext := by
    obtain ⟨rfl, -⟩ := Prod.mk.inj hClaim
    intro t ht
    have hRange : nNext - op.nI64 < t ∧ t ≤ nNext := by
      cases hBatch : op.isBatch <;> simpa [MultiProducer.InFlight, hBatch] using ht
    omega
  have hGoes : p'.sequenceClearOfConsumers = (s.producer.handles i).sequenceClearOfConsumers ∧
      (∀ picture, p'.pc.Reads R T picture) ∧ (∀ op' r, p'.pc ≠ .publishRange op' r) ∧
      flips es = [] := by
    obtain ⟨rfl, rfl⟩ := Prod.mk.inj hClaim
    refine ⟨rfl, fun picture => ?_, fun op' r => ?_, rfl⟩ <;> dsimp only
    · split <;> trivial
    · split <;> simp
  obtain ⟨hSame, hReads, hRange, hFlips⟩ := hGoes
  refine h.pushed (i := i) hWired .cursor ⟨nNext, released⟩ (by simp) hHistory
    (hLog.trans hLoaded.log) (hLoaded.wellFormed.perform hPerform) hGrows hOthers ?_ (by simp [hFlips])
    (fun hUni => by cases hUni) (fun t _ hAt => by cases hAt) (fun k message hm => ?_) ?_ hSame
    (hReads _) (fun t ht => ?_) (fun op' r hPc' => absurd hPc' (hRange op' r)) fun b hb _ ht => ?_
  · simp only [WeakSystem.latest, WeakSystem.memory, Machine.newest_of_history hHistory,
      Memory.ofValues_setCursor]
    exact hLatest
  · rw [← hNow]
    rw [hHistory, Function.update_self, History.getElem?_push] at hm
    split at hm
    · obtain rfl := Option.some.inj hm
      show -1 ≤ nNext ∧ nNext ≤ nNext
      omega
    · have := h.cursors k message hm
      omega
  · have hUp : current ≤ nNext := by omega
    rwa [hNow, hNewest] at hUp
  · have := hInFlight t ht
    omega
  · have := hInFlight _ ht
    have := h.targets b hb
    omega

/-- **Flipping bits of a word** passes on the writes of the claim. -/
theorem flipped (hWired : Wired T .multiProducer w) (h : WeakMultiInv R T tr s shown) {index : Nat}
    {mask : BitVec 64} {release : Bool} {m : Memory E}
    (hLoaded : Loaded s (.handle i) (some (.word index)) M m)
    (hPerform : M.perform (.handle i) (.exchange (.word index)
      ((s.memory.fetchXor index mask).available index) false release) = some M')
    (hLatest : MultiInv R T (tr ++ es)
      { s.latest with
        memory := s.memory.fetchXor index mask
        producer := s.producer.setHandle i p' })
    (hNew : ∀ t ∈ flips es, (s.producer.handles i).InFlight t ∧
      (R.calculateAvailabilityIndices t).1 = index)
    (hRelease : release = true ∨ ∃ op r, (s.producer.handles i).pc = .publishRange op r)
    (hGoes : Continues R T (seenState R .multiProducer s.machine shown (.handle i))
      (s.producer.handles i) p') :
    ∃ shown', WeakMultiInv R T (tr ++ es)
      { s with machine := M', producer := s.producer.setHandle i p' } shown' := by
  have hMine := h.handles i
  obtain ⟨-, hLog, released, hHistory, hFound, hReleased⟩ := Machine.perform_exchange hPerform
  rw [hLoaded.history] at hHistory hFound
  have hGrows := hLoaded.grows.trans (Grows.perform hLoaded.wellFormed hPerform)
  have hOthers := fun θ (hne : θ ≠ Party.handle i) =>
    (Machine.perform_others hPerform hne).trans (hLoaded.others θ hne)
  have hValue : ((Memory.ofValues s.slots s.machine.newest).fetchXor index mask).available index =
      s.machine.newest (.word index) ^^^ mask := by
    simp [Memory.fetchXor, Memory.ofValues]
  have hCursor : M'.history .cursor = s.machine.history .cursor := by
    rw [hHistory, Function.update_of_ne (by simp)]
  have hNewest : M'.newest .cursor = s.machine.newest .cursor := by
    rw [Machine.newest, Machine.newest, hCursor]
  -- its own writes the handle takes along, by this flip or by the fence before
  have hOwn : Informed s.machine.log released fun b => b.thread = .handle i := by
    refine Informed.mono ?_ hReleased fun _ hb => hb
    rcases hRelease with rfl | ⟨op, r, hPc⟩
    · show Informed _ (M.views (.handle i)).current _
      rw [hLoaded.current]
      exact h.messages.wellFormed.own _
    · cases release
      · show Informed _ (M.views (.handle i)).released _
        rw [hLoaded.released]
        exact hMine.fenced op r hPc
      · show Informed _ (M.views (.handle i)).current _
        rw [hLoaded.current]
        exact h.messages.wellFormed.own _
  refine h.pushed (i := i) hWired (.word index) ⟨_, released⟩ (by simp) hHistory
    (hLog.trans hLoaded.log) (hLoaded.wellFormed.perform hPerform) hGrows hOthers ?_
    (fun t ht => ?_) (fun _ t ht hIndex hNext => ?_) (fun t ht hAt => ?_) ?_ hNewest.ge hGoes.clear
    hGoes.reads (fun t ht => ?_) (fun op r hPc => ?_) fun b hb hWriter ht => ?_
  · have hMemory := Memory.ofValues_fetchXor s.slots s.machine.newest index mask
    rw [← hValue] at hMemory
    simp only [WeakSystem.latest, WeakSystem.memory, Machine.newest_of_history hHistory]
    rw [hMemory]
    exact hLatest
  · rw [Barrier.shownAt, (hNew t ht).2]
  · -- the new word encodes what is published now
    obtain ⟨-, hEnc⟩ := hLatest.consistent.represents.published
    have hBit : ((s.memory.fetchXor index mask).available (slotOf R.size t / 64)).getLsbD
        (slotOf R.size t % 64) = oddRound R.size t := hEnc t ht hNext
    have hIndex' : slotOf R.size t / 64 = index := by
      rwa [R.calculateAvailabilityIndices_eq] at hIndex
    rwa [hIndex'] at hBit
  · by_cases hFlip : t ∈ flips es
    · rintro k b hk ⟨hWriter, rfl⟩
      exact hOwn k b hk (hMine.writers b (List.mem_of_getElem? hk) hWriter (hNew _ hFlip).1)
    · -- what was published before, the word it replaces took along
      have hOld : t ∈ publishedBy tr := by
        rw [mem_publishedBy, flips_append, List.mem_append] at ht
        rw [mem_publishedBy]
        exact ht.imp_right fun ht => ht.resolve_right hFlip
      have hNewest := h.messages.newest t hOld
      rw [hAt] at hNewest
      exact (h.messages.writes _ _ _ (History.getElem?_last _) t hNewest hAt).mono hFound
        fun _ hb => hb
  · rw [hNewest, hCursor]
    exact h.cursors
  · rw [hGoes.clear]
    exact hMine.covered t (hGoes.inFlight t ht)
  · obtain ⟨op', r', hPc'⟩ := hGoes.range op r hPc
    rw [Machine.perform_released hPerform (by simp), hLoaded.released]
    exact hMine.fenced op' r' hPc'
  · exact hMine.writers b hb hWriter (hGoes.inFlight _ ht)

/-- A step of `get_after`, on what the handle has seen. -/
theorem scanned (hWired : Wired T .multiProducer w) (h : WeakMultiInv R T tr s shown) {op : Op E}
    {current nNext : Int} {g : GetAfter} {m : Memory E}
    (hName : i < s.producer.nextHandle)
    (hPc : (s.producer.handles i).pc = .getAfter op current nNext g)
    (hLoaded : Loaded s (.handle i) ((s.producer.handles i).loads R) M m) {pc : MultiPc E}
    (hNext : (∃ g', g.step R m = .inl g' ∧ pc = .getAfter op current nNext g') ∨
      ∃ rear, g.step R m = .inr rear ∧ pc = .freeSlots op current nNext rear) :
    WeakMultiInv R T tr
      { s with
        machine := M
        slots := m.slots
        producer := s.producer.setHandle i { s.producer.handles i with pc } } shown := by
  have hOk := h.latest.handle i
  unfold MultiProducer.Ok at hOk
  simp only [WeakSystem.latest, hPc] at hOk
  obtain ⟨hTarget, -⟩ := hOk
  have hOut : ∀ t, ¬ (s.producer.handles i).InFlight t := by
    intro t
    simp [MultiProducer.InFlight, hPc]
  have hMessages := h.messages.views hLoaded.history hLoaded.log hLoaded.wellFormed
  have hRep := hMessages.represents (.inr ⟨rfl, h.latest.consistent.represents.published.1⟩) s.slots
    (.handle i)
  have hLater := hMessages.seenState_le (.handle i)
  have hSame : g.step R m = g.step R (seenMemory s.slots M (.handle i)) := by
    refine GetAfter.step_congr fun x hx => ?_
    rw [hLoaded.presented x (by rw [MultiProducer.loads, hPc]; exact hx), seenMemory,
      Memory.value_ofValues]
  have hReads := (h.handles i).reads.later
    (h.messages.seenState_later hMessages ⟨hLoaded.grows, fun _ _ _ => rfl⟩ (.handle i))
  rw [hPc] at hReads
  have hSound := GetAfter.Sound.step hReads hRep (by omega)
  rw [← hSame] at hSound
  have hPicture : pc.Reads R T (seenState R .multiProducer M shown (.handle i)) ∧
      (∀ t, ¬ MultiProducer.InFlight { s.producer.handles i with pc } t) ∧
      (∀ op' r, pc ≠ .publishRange op' r) ∧
      MultiProducer.Ok R T (s.pipeline tr) tr i { s.producer.handles i with pc } := by
    rcases hNext with ⟨g', hg, rfl⟩ | ⟨rear, hg, rfl⟩
    · exact ⟨hSound.1 g' hg, fun _ ht => ht, by simp, hTarget, (hSound.1 g' hg).later hLater⟩
    · exact ⟨hSound.2 rear hg, fun _ ht => ht, by simp, hTarget, (hSound.2 rear hg).later hLater⟩
  obtain ⟨hReads', hOut', hRange, hOk'⟩ := hPicture
  have hLatest : MultiInv R T (tr ++ [])
      { s.latest with producer := s.producer.setHandle i { s.producer.handles i with pc } } :=
    h.latest.wait hName hOut hOut' rfl rfl (by simp) (h.latest.clear i) hOk'
  have hKept := h.loaded hWired hLoaded hLatest rfl hReads' hOut' hRange
  rwa [List.append_nil] at hKept

/-- **The acquire fence** makes known what came with the answer of the consumers. -/
theorem accepted (hWired : Wired T .multiProducer w) (h : WeakMultiInv R T tr s shown) {op : Op E}
    {current nNext rear : Int}
    (hPc : (s.producer.handles i).pc = .freeSlots op current nNext rear)
    (hPerform : s.machine.perform (.handle i) .acquireFence = some M')
    (hp : p' = { s.producer.handles i with
      sequenceClearOfConsumers := rear + R.size
      pc := .compareExchange op current nNext })
    (hLatest : MultiInv R T (tr ++ es) { s.latest with producer := s.producer.setHandle i p' })
    (hFlips : flips es = []) :
    WeakMultiInv R T (tr ++ es) { s with machine := M', producer := s.producer.setHandle i p' }
      shown := by
  subst hp
  have hPassed := (h.handles i).reads
  rw [hPc] at hPassed
  have hKnows := h.messages.knows (le_refl (T.last + 1)) hPassed
  have hGrows := Grows.perform h.messages.wellFormed hPerform
  have hWf := h.messages.wellFormed.perform hPerform
  have hOthers := fun θ (hne : θ ≠ Party.handle i) => Machine.perform_others hPerform hne
  obtain rfl := Option.some.inj hPerform
  refine h.quiet (i := i) hWired hLatest hFlips rfl hGrows hOthers (h.messages.views rfl rfl hWf)
    (.inl rfl) (fun j hne => by rw [SharedProducers.setHandle_handles, if_neg hne]) ?_
  rw [SharedProducers.setHandle_handles, if_pos rfl]
  exact ⟨hKnows.mono (by simp) (by simp), trivial, fun _ ht => ht.elim,
    fun _ _ hPc' => (by cases hPc'), fun _ _ _ ht => ht.elim⟩

/-- **The release fence** before a batch is published. -/
theorem fenced (hWired : Wired T .multiProducer w) (h : WeakMultiInv R T tr s shown) {op : Op E}
    {iter : MutBatchIter} {k : Nat} {r : PublishRange}
    (hPc : (s.producer.handles i).pc = .updates op iter k)
    (hPerform : s.machine.perform (.handle i) .releaseFence = some M')
    (hp : p' = { s.producer.handles i with pc := .publishRange op r })
    (hLatest : MultiInv R T (tr ++ es) { s.latest with producer := s.producer.setHandle i p' })
    (hFlips : flips es = []) :
    WeakMultiInv R T (tr ++ es) { s with machine := M', producer := s.producer.setHandle i p' }
      shown := by
  subst hp
  have hMine := h.handles i
  have hSame : ∀ t, MultiProducer.InFlight { s.producer.handles i with pc := .publishRange op r } t →
      (s.producer.handles i).InFlight t := by
    intro t ht
    unfold MultiProducer.InFlight
    rw [hPc]
    exact ht
  have hGrows := Grows.perform h.messages.wellFormed hPerform
  have hWf := h.messages.wellFormed.perform hPerform
  have hOthers := fun θ (hne : θ ≠ Party.handle i) => Machine.perform_others hPerform hne
  obtain rfl := Option.some.inj hPerform
  refine h.quiet (i := i) hWired hLatest hFlips rfl hGrows hOthers (h.messages.views rfl rfl hWf)
    (.inl rfl) (fun j hne => by rw [SharedProducers.setHandle_handles, if_neg hne]) ?_
  rw [SharedProducers.setHandle_handles, if_pos rfl]
  refine ⟨hMine.knows.mono (hGrows.current _) (le_refl _), trivial, fun t ht => ?_, fun _ _ _ => ?_,
    fun b hb hWriter ht => hMine.writers b hb hWriter (hSame _ ht)⟩
  · exact hMine.covered t (hSame t ht)
  · simpa using h.messages.wellFormed.own (.handle i)

/-- The last handle stores where the events end. -/
theorem ended (hWired : Wired T .multiProducer w) (h : WeakMultiInv R T tr s shown) {sequence : Int}
    {rest : List Nat}
    (hPerform : s.machine.perform (.handle i) (.store .shutdownAtSequence sequence false) = some M')
    (hp : p' = { s.producer.handles i with pc := .join rest })
    (hLatest : MultiInv R T (tr ++ es)
      { s.latest with
        memory := s.memory.storeShutdown sequence
        producer := s.producer.setHandle i p' })
    (hFlips : flips es = []) :
    ∃ shown', WeakMultiInv R T (tr ++ es)
      { s with machine := M', producer := s.producer.setHandle i p' } shown' := by
  subst hp
  have hWf := h.messages.wellFormed
  obtain ⟨hHistory, hLog, -⟩ := Machine.perform_store hPerform
  have hCursor : M'.history .cursor = s.machine.history .cursor := by
    rw [hHistory, Function.update_of_ne (by simp)]
  have hNewest : M'.newest .cursor = s.machine.newest .cursor := by
    rw [Machine.newest, Machine.newest, hCursor]
  refine h.pushed (i := i) hWired .shutdownAtSequence ⟨sequence, _⟩ (by simp) hHistory hLog
    (hWf.perform hPerform) (Grows.perform hWf hPerform)
    (fun θ hne => Machine.perform_others hPerform hne) ?_ (by simp [hFlips]) trivial
    (fun t _ hAt => by cases hAt) ?_ hNewest.ge rfl trivial (fun _ ht => ht.elim)
    (fun _ _ hPc => by cases hPc) fun _ _ _ ht => ht.elim
  · simp only [WeakSystem.latest, WeakSystem.memory, Machine.newest_of_history hHistory,
      Memory.ofValues_storeShutdown]
    exact hLatest
  · rw [hNewest, hCursor]
    exact h.cursors

/-- **A step of a handle**, with acquire fences and releasing flips. -/
theorem stepHandle (hWired : Wired T .multiProducer w) (hMulti : o.multiFence = true)
    (hBatch : o.batchFence = true) (hPublish : o.publish = true)
    (h : WeakMultiInv R T tr s shown) {act : HandleAct E} {k : Nat}
    (hRange : MultiAct.InRange (.producer (.handle i act)))
    (hs : WeakMultiSystem.step o R w s (.step (.producer (.handle i act)) k) = some (s', es)) :
    ∃ shown', WeakMultiInv R T (tr ++ es) s' shown' := by
  rw [WeakMultiSystem.step] at hs
  split at hs
  · cases hs
  rename_i p' _ hRun
  cases hs
  obtain ⟨M, m, m', M', hLoad, hHandle, hPerform, rfl⟩ := WeakSystem.run_cases hRun
  suffices hKept : ∃ shown', WeakMultiInv R T (tr ++ es)
      { s with machine := M', slots := m'.slots, producer := s.producer.setHandle i p' } shown' from
    hKept
  have hLoaded := WeakSystem.load_cases h.messages.wellFormed hLoad
  have hStep := multiProducerStep_cases hHandle
  have hMine := h.handles i
  have hOk := h.latest.handle i
  have hName := h.latest.name_lt (h := i) hStep.present
  have h64 := h.latest.consistent.represents.published.1
  have hRep := h.messages.represents (.inr ⟨rfl, h64⟩) s.slots (.handle i)
  -- a step that finds the newest value, or loads nothing, is a step with the newest values
  have hNewest : m = s.memory → MultiInv R T (tr ++ es)
      { s.latest with memory := m', producer := s.producer.setHandle i p' } := by
    rintro rfl
    refine h.latest.step hWired hRange ?_
    rw [MultiSystem.step]
    simp only [WeakSystem.latest, hHandle]
  have hNone : (s.producer.handles i).loads R = none → M = s.machine ∧ m = s.memory := by
    intro hLoads
    rw [hLoads] at hLoad
    exact ⟨(Prod.mk.inj (Option.some.inj hLoad)).1.symm, (Prod.mk.inj (Option.some.inj hLoad)).2.symm⟩
  have hDoes := hStep.does (o := o) hMulti hBatch hPublish hOk fun q =>
    hWired.consumerBarrier.sound hRep q
  generalize (s.producer.handles i).performs o R m' p' = op at hDoes hPerform
  cases hDoes with
  | idle hLoads hFlips hGoes =>
    obtain ⟨rfl, rfl⟩ := hNone hLoads
    obtain rfl := Option.some.inj hPerform
    exact ⟨shown, h.idle hWired (hNewest rfl) hFlips hGoes⟩
  | @retry op hPc hLoop =>
    obtain rfl := Option.some.inj hPerform
    obtain ⟨hIn, hOut, hLoads⟩ : op.InRange ∧ (∀ t, ¬ (s.producer.handles i).InFlight t) ∧
        (s.producer.handles i).loads R = some .cursor := by
      unfold MultiProducer.Ok at hOk
      unfold MultiProducer.InFlight MultiProducer.loads
      rcases hPc with hPc | ⟨current, nNext, hPc⟩ <;>
        simp only [WeakSystem.latest, hPc] at hOk ⊢
      · exact ⟨hOk, fun _ ht => ht, trivial⟩
      · exact ⟨hOk.1.inRange, fun _ ht => ht, trivial⟩
    obtain ⟨message, hm, hValue⟩ := Machine.exists_seen hLoaded.wellFormed (.handle i) .cursor
    have hCursor : m.cursor = message.value := (hLoaded.presented .cursor hLoads).trans hValue
    rw [hLoaded.history] at hm
    obtain ⟨hGe, hLe⟩ := h.cursors _ message hm
    rw [hCursor] at hLoop
    have hLatest := h.latest.loop_old hName hIn hOut hGe hLe hLoop
    rcases MultiProducer.loop_cases hLoop with ⟨rfl, rfl⟩ | ⟨rfl, rfl, -⟩ <;>
      exact ⟨shown, h.loaded hWired hLoaded hLatest rfl trivial (fun _ ht => ht) (by simp)⟩
  | shutdownCurrent hPc hp hEs =>
    obtain rfl := Option.some.inj hPerform
    subst hp hEs
    have hOut : ∀ t, ¬ (s.producer.handles i).InFlight t := by simp [MultiProducer.InFlight, hPc]
    have hLatest : MultiInv R T (tr ++ [])
        { s.latest with
          producer := s.producer.setHandle i
            { s.producer.handles i with pc := .shutdownStore (m.cursor + 1) } } :=
      h.latest.wait hName hOut (fun _ ht => ht) rfl rfl (by simp) (h.latest.clear i) trivial
    exact ⟨shown, h.loaded hWired hLoaded hLatest rfl trivial (fun _ ht => ht) (by simp)⟩
  | scan hPc hNext hp hEs =>
    obtain rfl := Option.some.inj hPerform
    subst hp hEs
    rw [List.append_nil]
    exact ⟨shown, h.scanned hWired hName hPc hLoaded hNext⟩
  | accept hPc hEs hp =>
    obtain ⟨rfl, rfl⟩ := hNone (by rw [MultiProducer.loads, hPc])
    exact ⟨shown, h.accepted hWired hPc hPerform hp (hNewest rfl) (by rw [hEs]; rfl)⟩
  | claim hPc hEq hClaim =>
    have hLoads : (s.producer.handles i).loads R = some .cursor := by rw [MultiProducer.loads, hPc]
    rw [hLoads] at hLoaded
    obtain ⟨hSeen, -⟩ := Machine.perform_exchange hPerform
    obtain rfl := hLoaded.newest fun x hx => Option.some.inj hx ▸ hSeen
    exact h.claimed hWired hLoaded hPc hEq hPerform hClaim (hNewest rfl)
  | write t slots hLoads hFlips hOwed hGoes hNot =>
    obtain ⟨rfl, rfl⟩ := hNone hLoads
    exact ⟨shown, h.write hWired hOwed hPerform (hNewest rfl) hFlips hGoes hNot⟩
  | fence hPc hp hFlips =>
    obtain ⟨rfl, rfl⟩ := hNone (by rw [MultiProducer.loads, hPc])
    exact ⟨shown, h.fenced hWired hPc hPerform hp (hNewest rfl) hFlips⟩
  | publish hLoads hNew hRelease hGoes =>
    rw [hLoads] at hLoaded
    obtain ⟨hSeen, -⟩ := Machine.perform_exchange hPerform
    obtain rfl := hLoaded.newest fun x hx => Option.some.inj hx ▸ hSeen
    exact h.flipped hWired hLoaded hPerform (hNewest rfl) hNew hRelease hGoes
  | shutdownStore hPc hp hFlips =>
    obtain ⟨rfl, rfl⟩ := hNone (by rw [MultiProducer.loads, hPc])
    exact h.ended hWired hPerform hp (hNewest rfl) hFlips

/-- **Another look at an event** that is lent to the closure. -/
theorem accessHandle (hWired : Wired T .multiProducer w) (h : WeakMultiInv R T tr s shown) {t : Int}
    (hWrite : (s.producer.handles i).pc.MayWrite (s.producer.handles i).claimedSequence t)
    (hs : s.access (.handle i) t true = some (s', es)) :
    ∃ shown', WeakMultiInv R T (tr ++ es) s' shown' := by
  unfold WeakSystem.access at hs
  split at hs
  · cases hs
  rename_i M' hPerform
  cases hs
  have hOk := h.latest.handle i
  have hSame : s.producer.setHandle i (s.producer.handles i) = s.producer := by
    simp [SharedProducers.setHandle]
  have hOwed : t ∈ (s.producer.handles i).owed (flips tr) ∧
      (∀ picture, (s.producer.handles i).pc.Reads R T picture) ∧
      ∀ op r, (s.producer.handles i).pc ≠ .publishRange op r := by
    cases hPc : (s.producer.handles i).pc with
    | update op =>
      rw [hPc] at hWrite
      obtain rfl : t = (s.producer.handles i).claimedSequence := hWrite
      refine ⟨hOk.owed (.inl hPc) ?_, fun _ => trivial, by simp⟩
      unfold MultiProducer.Ok at hOk
      simp only [WeakSystem.latest, hPc] at hOk
      have hOne := op.nI64_of_not_isBatch hOk.2.1
      unfold MultiProducer.InFlight
      simp only [WeakSystem.latest, hPc]
      omega
    | updates op iter k =>
      rw [hPc] at hWrite
      obtain ⟨hlo, hhi⟩ : (s.producer.handles i).claimedSequence - op.nI64 < t ∧ t < iter.current :=
        hWrite
      refine ⟨hOk.owed (.inr ⟨iter, k, hPc⟩) ?_, fun _ => trivial, by simp⟩
      unfold MultiProducer.Ok at hOk
      simp only [WeakSystem.latest, hPc] at hOk
      obtain ⟨hHolds, -, -, hCurrent, hk⟩ := hOk
      have hN := hHolds.inRange.nI64
      unfold MultiProducer.InFlight
      simp only [WeakSystem.latest, hPc]
      omega
    | _ =>
      rw [hPc] at hWrite
      exact hWrite.elim
  obtain ⟨hOwed, hReads, hRange⟩ := hOwed
  have hLatest : MultiInv R T (tr ++ [])
      { s.latest with producer := s.producer.setHandle i (s.producer.handles i) } := by
    rw [List.append_nil, hSame]
    exact h.latest
  have hKept := h.write hWired hOwed hPerform hLatest rfl
    ⟨rfl, fun _ ht => ht, hReads _, fun op r hPc => absurd hPc (hRange op r)⟩ hRange
  rw [hSame] at hKept
  exact ⟨shown, hKept⟩

/-- Cloning or dropping an idle handle. -/
theorem lifecycle (hWired : Wired T .multiProducer w) (h : WeakMultiInv R T tr s shown)
    {producer : SharedProducers E}
    (hLatest : MultiInv R T (tr ++ []) { s.latest with producer := producer })
    (hHandles : producer.handles = Function.update s.producer.handles i p')
    (hReads : ∀ picture, p'.pc.Reads R T picture) (hOut : ∀ t, ¬ p'.InFlight t)
    (hRange : ∀ op r, p'.pc ≠ .publishRange op r)
    (hClear : p'.sequenceClearOfConsumers = (s.producer.handles i).sequenceClearOfConsumers) :
    WeakMultiInv R T (tr ++ []) { s with producer := producer } shown := by
  refine h.quiet (i := i) hWired hLatest rfl rfl (.refl _) (fun _ _ => rfl) h.messages (.inl rfl)
    (fun j hne => by rw [hHandles, Function.update_of_ne hne]) ?_
  rw [hHandles, Function.update_self]
  refine ⟨hClear ▸ (h.handles i).knows, hReads _, fun t ht => absurd ht (hOut t),
    fun op r hPc => absurd hPc (hRange op r), fun b _ _ ht => absurd ht (hOut _)⟩

/-- **Every step keeps the invariant**, with the orderings of the source; those of
the compare-exchange are not needed. -/
theorem step (hWired : Wired T .multiProducer w) (hStore : o.cursorStore = true)
    (hWait : o.waitFence = true) (hPoll : o.pollFence = true) (hMulti : o.multiFence = true)
    (hBatch : o.batchFence = true) (hPublish : o.publish = true)
    (h : WeakMultiInv R T tr s shown) {act : WeakAct (MultiAct E)}
    (hRange : act.ok MultiAct.InRange)
    (hs : WeakMultiSystem.step o R w s act = some (s', es)) :
    ∃ shown', WeakMultiInv R T (tr ++ es) s' shown' := by
  have hKeeps := MultiInv.keeps (E := E) (R := R) hWired
  have h64 := h.latest.consistent.represents.published.1
  cases act with
  | step act k =>
    cases act with
    | consumer c act =>
      obtain ⟨shown', hMoved, hRest⟩ :=
        h.toWeakInv.stepConsumer hKeeps (.inr ⟨rfl, h64⟩) hWired hStore hWait hPoll hs
      exact ⟨shown', h.undisturbed hMoved hRest⟩
    | producer act =>
      cases act with
      | handle i act => exact h.stepHandle hWired hMulti hBatch hPublish hRange hs
      | clone i =>
        rw [WeakMultiSystem.step] at hs
        split at hs
        · cases hs
        rename_i producer hClone
        cases hs
        have hLatest : MultiInv R T (tr ++ []) { s.latest with producer := producer } := by
          refine h.latest.step hWired (show MultiAct.InRange (.producer (.clone i)) from trivial) ?_
          rw [MultiSystem.step]
          simp only [WeakSystem.latest, hClone]
        have hAbsent := h.latest.absent s.producer.nextHandle (le_refl _)
        refine ⟨shown, h.lifecycle hWired hLatest (SharedProducers.clone_handles hClone)
          (fun _ => trivial) (fun _ ht => ht) (by simp [MultiProducer.cloned]) ?_⟩
        exact (congrArg MultiProducer.sequenceClearOfConsumers hAbsent).symm
      | drop i =>
        rw [WeakMultiSystem.step] at hs
        split at hs
        · cases hs
        rename_i producer hDrop
        cases hs
        have hLatest : MultiInv R T (tr ++ []) { s.latest with producer := producer } := by
          refine h.latest.step hWired (show MultiAct.InRange (.producer (.drop i)) from trivial) ?_
          rw [MultiSystem.step]
          simp only [WeakSystem.latest, hDrop]
        obtain ⟨pc, rfl | rfl, hHandles⟩ := SharedProducers.drop_handles hDrop <;>
          exact ⟨shown, h.lifecycle hWired hLatest hHandles (fun _ => trivial) (fun _ ht => ht)
            (by simp) rfl⟩
  | access θ t =>
    cases θ with
    | consumer c =>
      obtain ⟨hMoved, hRest⟩ := h.toWeakInv.accessConsumer hKeeps hWired hs
      exact ⟨shown, h.undisturbed hMoved hRest⟩
    | handle i =>
      rw [WeakMultiSystem.step] at hs
      split at hs
      · exact h.accessHandle hWired ‹_› hs
      · cases hs

end WeakMultiInv

/-- **The invariant holds in every reachable state.** -/
theorem WeakMultiRun.inv {R : MultiRingSize} (hWired : Wired T .multiProducer w)
    (hStore : o.cursorStore = true) (hWait : o.waitFence = true) (hPoll : o.pollFence = true)
    (hMulti : o.multiFence = true) (hBatch : o.batchFence = true) (hPublish : o.publish = true)
    {s : WeakMultiSystem E} (h : WeakMultiRun o R w factory tr s) :
    ∃ shown, WeakMultiInv R.toRingSize T tr s shown :=
  Run.induct (P := fun tr s => ∃ shown, WeakMultiInv R.toRingSize T tr s shown)
    (WeakMultiInv.init R.dvd_size hWired)
    (fun _ hInv hRange hs =>
      have ⟨_, hInv⟩ := hInv
      hInv.step hWired hStore hWait hPoll hMulti hBatch hPublish hRange hs) h

end Calvera
