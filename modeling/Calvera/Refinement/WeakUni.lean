import Calvera.Refinement.Uni
import Calvera.Refinement.WeakConsumers

/-!
# Refinement — the single producer on release/acquire memory

The producer may find old cursors of consumers, and then claims less. Its acquire
fence makes known every access up to the cached bound, one round earlier
(`WeakUniInv.knows`); its own writes it knows anyway, and the release store of
the cursor takes all of them along.

* `WeakUniRun.inv` — the invariant holds in every reachable state.
-/

namespace Calvera

open Calvera.Lib Calvera.Lib.ReleaseAcquire Calvera.Protocol

variable {E : Type} {o : Orderings} {R : RingSize} {T : Topology Nat} {w : Wiring}
  {factory : Nat → E} {tr es : List (Event E)}

-- ---------------------------------------------------------------------------
-- With the newest values
-- ---------------------------------------------------------------------------

/-- A consumer that observes what has passed keeps the invariant. -/
theorem UniInv.observe {s : UniSystem E} {c : Nat} {pc' : ConsumerPc} (h : UniInv R T tr s)
    (hMem : c ∈ T.members) (hEs : ∀ e ∈ es, e.OfConsumer)
    (hObs : Observes R T .uniProducer s (s.pipeline s.producer.claimed (publishedBy tr)) c pc') :
    UniInv R T (tr ++ es) { s with consumers := Function.update s.consumers c pc' } := by
  obtain ⟨-, hFlips, -⟩ := history_ofConsumer hEs
  have hSame : publishedBy (tr ++ es) = publishedBy tr := by
    ext t
    simp [hFlips]
  obtain ⟨hConsistent, hLater⟩ := h.consistent.observe hMem hObs
  refine ⟨?_, h.cursor, h.sequence, ?_, h.clear, ?_⟩
  · rw [hSame]
    exact hConsistent
  · rw [flips_append, hFlips, List.append_nil]
    exact h.flipped
  · rw [hSame]
    exact h.pc.later hLater

theorem UniInv.keeps (hWired : Wired T .uniProducer w) :
    Keeps (E := E) R T .uniProducer w (UniInv R T) fun s => s.producer.claimed where
  claimed_congr hProducer _ := by rw [hProducer]
  consistent h := h.consistent
  consumer h hSpec hStep := h.consumer hWired hSpec hStep
  observe h hMem hEs hObs := h.observe hMem hEs hObs

-- ---------------------------------------------------------------------------
-- The invariant
-- ---------------------------------------------------------------------------

/-- What the producer has read is sound in its picture. -/
def UniPc.Reads (R : RingSize) (T : Topology Nat) (picture : State Nat) (sequence : Int) :
    UniPc E → Prop
  | .getAfter _ _ g => g.Sound R T .uniProducer picture (T.last + 1) (sequence - 1)
  | .freeSlots _ _ rear => picture.Passed T (T.last + 1) rear
  | _ => True

theorem UniPc.Reads.later {picture picture' : State Nat} {sequence : Int} {pc : UniPc E}
    (h : pc.Reads R T picture sequence) (hLater : picture.Later T picture') :
    pc.Reads R T picture' sequence := by
  cases pc with
  | getAfter op nNext g => exact GetAfter.Sound.later h hLater
  | freeSlots op nNext rear =>
    have hPassed : picture.Passed T (T.last + 1) rear := h
    exact hPassed.later hLater
  | _ => trivial

/-- What a step of the producer to `p'` comes to; `picture` is what it has seen. -/
inductive UniDoes (R : RingSize) (T : Topology Nat) (o : Orderings) (picture : State Nat)
    (m : Memory E) (p p' : UniProducer E) (es : List (Event E)) :
    Option AtomicOp → Memory E → Prop
  | idle : p.pc.loads R = none → p'.sequence = p.sequence →
      p'.sequenceClearOfConsumers = p.sequenceClearOfConsumers →
      p'.pc.Reads R T picture p'.sequence → UniDoes R T o picture m p p' es none m
  /-- It reads on, or has its answer. -/
  | scan {op nNext g pc} : p.pc = .getAfter op nNext g →
      ((∃ g', g.step R m = .inl g' ∧ pc = .getAfter op nNext g') ∨
        ∃ rear, g.step R m = .inr rear ∧ pc = .freeSlots op nNext rear) →
      p' = { p with pc } → es = [] → UniDoes R T o picture m p p' es none m
  /-- It claims on account of the answer. -/
  | claim {op nNext rear} : p.pc = .freeSlots op nNext rear → p'.sequence = p.sequence →
      p'.sequenceClearOfConsumers = rear + R.size →
      (∀ picture, p'.pc.Reads R T picture p'.sequence) →
      UniDoes R T o picture m p p' es (some .acquireFence) m
  /-- It writes an event. -/
  | write (t : Int) (slots : Nat → E) : p.pc.loads R = none → p.sequence ≤ t → t ≤ p.claimed →
      p'.sequence = p.sequence → p'.sequenceClearOfConsumers = p.sequenceClearOfConsumers →
      (∀ picture, p'.pc.Reads R T picture p'.sequence) →
      UniDoes R T o picture m p p' es (some (.access t true)) { m with slots }
  | publish {op} : p.pc = .publish op →
      p' = { p with sequence := p.sequence + op.nI64, pc := .idle } →
      UniDoes R T o picture m p p' es
        (some (.store .cursor (p.sequence + op.nI64 - 1) o.cursorStore))
        (m.setCursor (p.sequence + op.nI64 - 1))
  | shutdown {rest} : p.pc = .shutdown → p' = { p with pc := .join rest } →
      UniDoes R T o picture m p p' es (some (.store .shutdownAtSequence p.sequence false))
        (m.storeShutdown p.sequence)

/-- Every step of the producer is one of these. -/
theorem UniStep.does {barrier : Barrier} {handles : List Nat} {exited : Nat → Bool}
    {picture a : State Nat} {m m' : Memory E} {p p' : UniProducer E} {act : UniAct E}
    (hStep : UniStep R barrier handles exited m p act m' p' es) (hFence : o.uniFence = true)
    (hOk : p.pc.Ok R T a p.sequence)
    (hCall : ∀ q, (barrier.getAfter q).Sound R T .uniProducer picture (T.last + 1) q) :
    UniDoes R T o picture m p p' es (p.performs o m' p') m' := by
  -- entering `next_sequences` again
  have hNext : ∀ {op : Op E} {es'}, p.nextSequences op = (p', es') → p.pc.loads R = none →
      p.performs o m p' = none → UniDoes R T o picture m p p' es (p.performs o m p') m := by
    intro op es' hq hLoads hNone
    rw [hNone]
    rcases UniProducer.nextSequences_cases hq with ⟨rfl, -⟩ | ⟨rfl, -, -⟩ <;>
      exact .idle hLoads rfl rfl trivial
  have hSequence : ∀ {op : Op E} {es'}, p.nextSequences op = (p', es') →
      p'.pc = .overflowed ∨ ∃ nNext, p'.pc = .check op nNext := by
    intro op es' hq
    rcases UniProducer.nextSequences_cases hq with ⟨rfl, -⟩ | ⟨rfl, -, -⟩
    · exact .inl rfl
    · exact .inr ⟨_, rfl⟩
  have hFirst : ∀ {op : Op E}, p.pc = .update op → p.sequence ≤ p.claimed := by
    intro op hPc
    rw [hPc] at hOk
    have hOne : op.nI64 = 1 := Op.nI64_of_not_isBatch hOk.2
    rw [UniProducer.claimed, hPc]
    show p.sequence ≤ p.sequence - 1 + op.nI64
    omega
  have hNth : ∀ {op : Op E} {iter k}, p.pc = .updates op iter k → iter.current ≤ iter.last →
      p.sequence ≤ iter.current ∧ iter.current ≤ p.claimed := by
    intro op iter k hPc hle
    rw [hPc] at hOk
    obtain ⟨-, hLast, hCurrent, -⟩ := hOk
    rw [UniProducer.claimed, hPc]
    show _ ∧ iter.current ≤ p.sequence - 1 + op.nI64
    omega
  cases hStep with
  | call hPc hq => exact hNext hq (by rw [hPc]; rfl) (by simp [UniProducer.performs, hPc])
  | slow hPc _ =>
    rw [show p.performs o m _ = none by simp [UniProducer.performs, hPc]]
    exact .idle (by rw [hPc]; rfl) rfl rfl (hCall _)
  | @fast op _ _ _ hPc _ hq =>
    obtain ⟨rfl, -⟩ := Prod.mk.inj hq
    rw [show p.performs o m _ = none by simp [UniProducer.performs, hPc]]
    refine .idle (by rw [hPc]; rfl) rfl rfl ?_
    cases op.isBatch <;> trivial
  | read hPc hg =>
    rw [show p.performs o m _ = none by simp [UniProducer.performs, hPc]]
    exact .scan hPc (.inl ⟨_, hg, rfl⟩) rfl rfl
  | answer hPc hg =>
    rw [show p.performs o m _ = none by simp [UniProducer.performs, hPc]]
    exact .scan hPc (.inr ⟨_, hg, rfl⟩) rfl rfl
  | overflow hPc =>
    rw [show p.performs o m _ = none by simp [UniProducer.performs, hPc]]
    exact .idle (by rw [hPc]; rfl) rfl rfl trivial
  | @refuse op _ _ _ _ _ hPc _ _ hq =>
    unfold UniProducer.refuse at hq
    split at hq
    · generalize hn : p.nextSequences op = next at hq
      obtain ⟨q, es'⟩ := next
      obtain ⟨rfl, -⟩ := Prod.mk.inj hq
      refine hNext hn (by rw [hPc]; rfl) ?_
      rcases hSequence hn with hPc' | ⟨nNext, hPc'⟩ <;> simp [UniProducer.performs, hPc, hPc']
    · obtain ⟨rfl, -⟩ := Prod.mk.inj hq
      rw [show p.performs o m _ = none by simp [UniProducer.performs, hPc]]
      exact .idle (by rw [hPc]; rfl) rfl rfl trivial
  | @accept op _ rear _ clear _ _ hPc hFree _ hClear hq =>
    have hFree' := R.freeSlots_eq_some hFree
    obtain ⟨-, rfl⟩ := addI64_eq_some.mp hClear
    obtain ⟨rfl, -⟩ := Prod.mk.inj hq
    cases hBatch : op.isBatch with
    | true =>
      rw [show p.performs o m _ = some .acquireFence by
        simp [UniProducer.performs, hPc, fence, hFence]]
      exact .claim hPc rfl (by simp only; omega) fun _ => trivial
    | false =>
      rw [show p.performs o m _ = some .acquireFence by
        simp [UniProducer.performs, hPc, fence, hFence]]
      exact .claim hPc rfl (by simp only; omega) fun _ => trivial
  | @update op hPc =>
    rw [show p.performs o _ _ = some (.access p.sequence true) by simp [UniProducer.performs, hPc]]
    exact .write _ _ (by rw [hPc]; rfl) (le_refl _) (hFirst hPc) rfl rfl fun _ => trivial
  | unwindUpdate hPc =>
    rw [show p.performs o _ _ = some (.access p.sequence true) by simp [UniProducer.performs, hPc]]
    exact .write _ _ (by rw [hPc]; rfl) (le_refl _) (hFirst hPc) rfl rfl fun _ => trivial
  | updatesEnd hPc hlt =>
    rw [show p.performs o m _ = none by simp [UniProducer.performs, hPc, hlt]]
    exact .idle (by rw [hPc]; rfl) rfl rfl trivial
  | @updatesNext op iter k hPc hle =>
    rw [show p.performs o _ _ = some (.access iter.current true) by
      simp [UniProducer.performs, hPc, hle]]
    obtain ⟨hlo, hhi⟩ := hNth hPc hle
    exact .write _ _ (by rw [hPc]; rfl) hlo hhi rfl rfl fun _ => trivial
  | unwindEnd hPc hlt =>
    rw [show p.performs o m _ = none by simp [UniProducer.performs, hPc, hlt]]
    exact .idle (by rw [hPc]; rfl) rfl rfl trivial
  | @unwindNext op iter k _ hPc hle =>
    rw [show p.performs o _ _ = some (.access iter.current true) by
      simp [UniProducer.performs, hPc, hle]]
    obtain ⟨hlo, hhi⟩ := hNth hPc hle
    exact .write _ _ (by rw [hPc]; rfl) hlo hhi rfl rfl fun _ => trivial
  | @publish op hPc =>
    rw [show p.performs o _ _ = some (.store .cursor (p.sequence + op.nI64 - 1) o.cursorStore) by
      simp [UniProducer.performs, hPc, Memory.setCursor]]
    exact .publish hPc rfl
  | drop hPc =>
    rw [show p.performs o m _ = none by simp [UniProducer.performs, hPc]]
    exact .idle (by rw [hPc]; rfl) rfl rfl trivial
  | shutdown hPc =>
    rw [show p.performs o _ _ = some (.store .shutdownAtSequence p.sequence false) by
      simp [UniProducer.performs, hPc, Memory.storeShutdown]]
    exact .shutdown hPc rfl
  | join hPc _ =>
    rw [show p.performs o m _ = none by simp [UniProducer.performs, hPc]]
    exact .idle (by rw [hPc]; rfl) rfl rfl trivial
  | joined hPc =>
    rw [show p.performs o m _ = none by simp [UniProducer.performs, hPc]]
    exact .idle (by rw [hPc]; rfl) rfl rfl trivial

/-- The state of the pipeline with the newest values. -/
abbrev WeakUniSystem.pipeline (s : WeakUniSystem E) (tr : List (Event E)) : State Nat :=
  s.state (fun s => s.producer.claimed) tr

/-- The invariant on release/acquire memory. -/
structure WeakUniInv (R : RingSize) (T : Topology Nat) (tr : List (Event E))
    (s : WeakUniSystem E) (shown : Loc → Nat → Set Int) : Prop extends
    WeakInv R T .uniProducer (UniInv R T) (fun s => s.producer.claimed) tr s shown where
  /-- The acquire fence came with the cached bound. -/
  knows : Knows T Party.consumer? s.machine.log (s.machine.views (.handle 0)).current (T.last + 1)
    (s.producer.sequenceClearOfConsumers - R.size)
  reads : s.producer.pc.Reads R T (seenState R .uniProducer s.machine shown (.handle 0))
    s.producer.sequence
  covered : s.producer.claimed ≤ s.producer.sequenceClearOfConsumers
  writers : ∀ b ∈ s.machine.log, b.thread.consumer? = none → b.thread = .handle 0

namespace WeakUniInv

variable {s s' : WeakUniSystem E} {shown shown' : Loc → Nat → Set Int} {M M' : AtomicMachine}
  {p' : UniProducer E} {slots' : Nat → E}

theorem inv (h : WeakUniInv R T tr s shown) : Inv T R.size (s.pipeline tr) :=
  h.latest.consistent.inv

/-- One round before the cached bound everything has passed. -/
theorem passed (h : WeakUniInv R T tr s shown) :
    (s.pipeline tr).Passed T (T.last + 1) (s.producer.sequenceClearOfConsumers - R.size) := by
  intro c hMem _
  have : s.producer.sequenceClearOfConsumers ≤ s.memory.consumerCursors c + R.size :=
    h.latest.clear c hMem
  show _ ≤ s.memory.consumerCursors c
  omega

/-- What `build` returns. -/
theorem init (hWired : Wired T .uniProducer w) :
    ∃ shown, WeakUniInv R T [] (WeakUniSystem.init R w factory) shown := by
  have hInv : UniInv R T [] (UniSystem.init R w factory) := .init hWired
  refine ⟨_, .init (UniInv.keeps hWired) (.inl rfl) hWired factory _ hInv, fun i b hi => ?_,
    trivial, ?_, fun b hb => ?_⟩
  · simp [WeakUniSystem.init, WeakSystem.init, Machine.init] at hi
  · show (0 : Int) - 1 + 0 ≤ R.sizeI64 - 1
    have := R.size_pos
    rw [R.sizeI64_eq]
    omega
  · simp [WeakUniSystem.init, WeakSystem.init, Machine.init] at hb

/-- A step of a consumer. -/
theorem undisturbed (h : WeakUniInv R T tr s shown)
    (hMoved : WeakInv R T .uniProducer (UniInv R T) (fun s => s.producer.claimed) (tr ++ es) s'
      shown')
    {c : Nat} (hRest : Undisturbed T (fun s : UniSystem E => s.producer.claimed) c tr (tr ++ es) s s'
      shown shown') : WeakUniInv R T (tr ++ es) s' shown' := by
  have hLater := h.messages.seenState_later hMoved.messages hRest.extend (.handle 0)
  have hKnows := hRest.log.knows h.knows h.inv h.passed (le_refl _)
  refine ⟨hMoved, ?_, ?_, ?_, fun b hb hWriter => ?_⟩
  · rw [hRest.producer]
    exact hKnows.mono (hRest.extend.grows.current _) (le_refl _)
  · rw [hRest.producer]
    exact h.reads.later hLater
  · rw [hRest.producer]
    exact h.covered
  · rcases hRest.log.mem hb with hb | ⟨hThread, -⟩
    · exact h.writers b hb hWriter
    · rw [hThread] at hWriter
      cases hWriter

/-- A step of the producer that writes no atomic. -/
theorem quiet (hWired : Wired T .uniProducer w) (h : WeakUniInv R T tr s shown)
    (hLatest : UniInv R T (tr ++ es)
      { s.latest with memory := { s.memory with slots := slots' }, producer := p' })
    (hSequence : p'.sequence = s.producer.sequence) (hHistory : M'.history = s.machine.history)
    (hGrows : Grows s.machine M') (hOthers : ∀ θ ≠ .handle 0, M'.views θ = s.machine.views θ)
    (hMessages : Messages R T .uniProducer M' (s.pipeline tr) shown)
    (hLog : LogExtends T Party.consumer? (s.pipeline tr) (.handle 0) s.machine.log M'.log)
    (hKnows : Knows T Party.consumer? M'.log (M'.views (.handle 0)).current (T.last + 1)
      (p'.sequenceClearOfConsumers - R.size))
    (hReads : p'.pc.Reads R T (seenState R .uniProducer M' shown (.handle 0)) p'.sequence)
    (hCovered : p'.claimed ≤ p'.sequenceClearOfConsumers) :
    WeakUniInv R T (tr ++ es) { s with machine := M', slots := slots', producer := p' } shown := by
  have hNewest : M'.newest = s.machine.newest := by
    funext x
    rw [Machine.newest, Machine.newest, hHistory]
  have hSame : WeakSystem.latest { s with machine := M', slots := slots', producer := p' } =
      { s.latest with memory := { s.memory with slots := slots' }, producer := p' } := by
    simp only [WeakSystem.latest, WeakSystem.memory, hNewest]
    rfl
  have hPublished : publishedBy (tr ++ es) = publishedBy tr := by
    ext t
    rw [hLatest.mem_publishedBy_iff, h.latest.mem_publishedBy_iff]
    show t < p'.sequence ↔ t < s.producer.sequence
    rw [hSequence]
  refine ⟨h.produced (UniInv.keeps hWired) (hSame ▸ hLatest) (hMessages.congr hPublished ?_)
    ⟨hGrows, fun _ _ _ => rfl⟩ hLog (fun c => hOthers _ (by simp)) (fun c => by rw [hHistory]),
    hKnows, hReads, hCovered, fun b hb hWriter => ?_⟩
  · funext c
    exact congrFun hNewest (.consumerCursor c)
  · exact (hLog.mem hb).elim (fun hb => h.writers b hb hWriter) fun hb => hb.1

/-- **Writing** an event of the claim races with no access. -/
theorem write (h : WeakUniInv R T tr s shown) {t : Int} (hlo : s.producer.sequence ≤ t)
    (hhi : t ≤ s.producer.claimed)
    (hPerform : s.machine.perform (.handle 0) (.access t true) = some M') :
    Messages R T .uniProducer M' (s.pipeline tr) shown ∧
      LogExtends T Party.consumer? (s.pipeline tr) (.handle 0) s.machine.log M'.log ∧
      M'.history = s.machine.history ∧
      Knows T Party.consumer? M'.log (M'.views (.handle 0)).current (T.last + 1)
        (s.producer.sequenceClearOfConsumers - R.size) := by
  have hAllowed : Allowed T Party.consumer? (s.pipeline tr) (.handle 0) t := by
    refine ⟨fun ht => ?_, hhi⟩
    have : t < s.producer.sequence := h.latest.mem_publishedBy_iff.mp ht
    omega
  have hOwn : Informed s.machine.log (s.machine.views (.handle 0)).current fun b =>
      b.thread.consumer? = none ∧ b.target = t := fun i b hi hb =>
    h.messages.wellFormed.own _ i b hi (h.writers b (List.mem_of_getElem? hi) hb.1)
  have hKnown := h.messages.logged.write h.inv R.pos hAllowed rfl h.knows
    (by have := h.covered; omega) hOwn
  have hAccess := h.messages.access h.inv hPerform hAllowed (by simp [Party.consumer?])
    (hKnown.mono (Finset.Subset.refl _) fun b hb => by rw [← R.slot_eq, ← R.slot_eq]; exact hb.1)
  have hGrows := Grows.perform h.messages.wellFormed hPerform
  obtain rfl := Option.some.inj hPerform
  have hLog : LogExtends T Party.consumer? (s.pipeline tr) (.handle 0) s.machine.log
      (s.machine.log ++ [⟨.handle 0, t, true, (s.machine.views (.handle 0)).current⟩]) :=
    .inr ⟨_, rfl, hAllowed, rfl⟩
  exact ⟨hAccess, hLog, rfl, (hLog.knows h.knows h.inv h.passed (le_refl _)).mono
    (hGrows.current _) (le_refl _)⟩

/-- **A store of the producer**: to its barrier it takes along all its writes. -/
theorem stored (hWired : Wired T .uniProducer w) (h : WeakUniInv R T tr s shown) {x : Loc}
    {v : x.Value} {release : Bool} (hx : ∀ c, x ≠ .consumerCursor c)
    (hPerform : s.machine.perform (.handle 0) (.store x v release) = some M')
    (hLatest : UniInv R T (tr ++ es)
      (WeakSystem.latest { s with machine := M', slots := slots', producer := p' }))
    (hClear : p'.sequenceClearOfConsumers = s.producer.sequenceClearOfConsumers)
    (hReads : ∀ picture, p'.pc.Reads R T picture p'.sequence)
    (hCovered : p'.claimed ≤ p'.sequenceClearOfConsumers)
    (hPublished : publishedBy tr ⊆ publishedBy (tr ++ es))
    (hNew : ∀ t ∈ publishedBy (tr ++ es), t ∉ publishedBy tr → x = .cursor)
    (hShows : Barrier.uniProducer.Shows R (publishedBy (tr ++ es)) x v)
    (hRelease : x = .cursor → release = true) :
    ∃ shown', WeakUniInv R T (tr ++ es)
      { s with machine := M', slots := slots', producer := p' } shown' := by
  have hWf := h.messages.wellFormed
  obtain ⟨hHistory, hLogSame, -⟩ := Machine.perform_store hPerform
  have hGrows := Grows.perform hWf hPerform
  have hCursors : ∀ c, M'.history (.consumerCursor c) = s.machine.history (.consumerCursor c) := by
    intro c
    rw [hHistory, Function.update_of_ne (hx c).symm]
  have hCursor : (WeakUniSystem.pipeline
      { s with machine := M', slots := slots', producer := p' } (tr ++ es)).cursor =
      (s.pipeline tr).cursor := by
    funext c
    show M'.newest (.consumerCursor c) = s.machine.newest (.consumerCursor c)
    rw [Machine.newest, Machine.newest, hCursors]
  obtain ⟨shown', hMessages, hExt⟩ := h.messages.publish
    (WeakUniSystem.pipeline { s with machine := M', slots := slots', producer := p' } (tr ++ es))
    hx hHistory hLogSame (hWf.perform hPerform) hGrows hPublished hCursor
    (fun t ht hOld => (hNew t ht hOld).symm) hShows (fun t _ hAt i b hi hb => by
      rw [hRelease hAt.symm]
      exact hWf.own _ i b hi (h.writers b (List.mem_of_getElem? hi) hb.1))
  have hLog : LogExtends T Party.consumer? (s.pipeline tr) (.handle 0) s.machine.log M'.log :=
    .inl hLogSame
  refine ⟨shown', h.produced (UniInv.keeps hWired) hLatest hMessages hExt hLog
    (fun c => Machine.perform_others hPerform (by simp)) hCursors, ?_, hReads _, hCovered, ?_⟩
  · rw [hClear, hLogSame]
    exact h.knows.mono (hGrows.current _) (le_refl _)
  · rw [hLogSame]
    exact h.writers

/-- A step that neither loads nor performs anything. -/
theorem idle (hWired : Wired T .uniProducer w) (h : WeakUniInv R T tr s shown)
    (hLatest : UniInv R T (tr ++ es) { s.latest with producer := p' })
    (hSequence : p'.sequence = s.producer.sequence)
    (hClear : p'.sequenceClearOfConsumers = s.producer.sequenceClearOfConsumers)
    (hReads : p'.pc.Reads R T (seenState R .uniProducer s.machine shown (.handle 0)) p'.sequence)
    (hCovered : p'.claimed ≤ p'.sequenceClearOfConsumers) :
    WeakUniInv R T (tr ++ es) { s with producer := p' } shown :=
  h.quiet hWired hLatest hSequence rfl (.refl _) (fun _ _ => rfl) h.messages (.inl rfl)
    (hClear ▸ h.knows) hReads hCovered

/-- A step that writes an event, also when the closure unwinds. -/
theorem written (hWired : Wired T .uniProducer w) (h : WeakUniInv R T tr s shown) {t : Int}
    (hlo : s.producer.sequence ≤ t) (hhi : t ≤ s.producer.claimed)
    (hPerform : s.machine.perform (.handle 0) (.access t true) = some M')
    (hLatest : UniInv R T (tr ++ es)
      { s.latest with memory := { s.memory with slots := slots' }, producer := p' })
    (hSequence : p'.sequence = s.producer.sequence)
    (hClear : p'.sequenceClearOfConsumers = s.producer.sequenceClearOfConsumers)
    (hReads : ∀ picture, p'.pc.Reads R T picture p'.sequence)
    (hCovered : p'.claimed ≤ p'.sequenceClearOfConsumers) :
    WeakUniInv R T (tr ++ es) { s with machine := M', slots := slots', producer := p' } shown := by
  obtain ⟨hMessages, hLog, hHistory, hKnows⟩ := h.write hlo hhi hPerform
  exact h.quiet hWired hLatest hSequence hHistory (Grows.perform h.messages.wellFormed hPerform)
    (fun _ hne => Machine.perform_others hPerform hne) hMessages hLog (hClear ▸ hKnows) (hReads _)
    hCovered

/-- A step of `get_after`, on what the producer has seen. -/
theorem scanned (hWired : Wired T .uniProducer w) (h : WeakUniInv R T tr s shown) {op : Op E}
    {nNext : Int} {g : GetAfter} (hPc : s.producer.pc = .getAfter op nNext g) {m : Memory E}
    (hLoaded : Loaded s (.handle 0) (s.producer.pc.loads R) M m) {pc : UniPc E}
    (hNext : (∃ g', g.step R m = .inl g' ∧ pc = .getAfter op nNext g') ∨
      ∃ rear, g.step R m = .inr rear ∧ pc = .freeSlots op nNext rear) :
    WeakUniInv R T tr { s with machine := M, slots := m.slots, producer := { s.producer with pc } }
      shown := by
  have hOk : s.producer.pc.Ok R T (s.pipeline tr) s.producer.sequence := h.latest.pc
  rw [hPc] at hOk
  obtain ⟨hIn, hOp, hMax, -⟩ := hOk
  have hMessages := h.messages.views hLoaded.history hLoaded.log hLoaded.wellFormed
  have hExt : Extends s.machine M shown shown := ⟨hLoaded.grows, fun _ _ _ => rfl⟩
  have hRep := hMessages.represents (.inl rfl) s.slots (.handle 0)
  have hLater := hMessages.seenState_le (.handle 0)
  have hSame : g.step R m = g.step R (seenMemory s.slots M (.handle 0)) := by
    refine GetAfter.step_congr fun x hx => ?_
    rw [hLoaded.presented x (by rw [hPc]; exact hx), seenMemory, Memory.value_ofValues]
  have hReads := h.reads.later (h.messages.seenState_later hMessages hExt (.handle 0))
  rw [hPc] at hReads
  have hSound := GetAfter.Sound.step hReads hRep (by omega)
  rw [← hSame] at hSound
  have hPicture : pc.Reads R T (seenState R .uniProducer M shown (.handle 0)) s.producer.sequence ∧
      pc.inFlight = s.producer.pc.inFlight ∧
      pc.Ok R T (s.pipeline tr) s.producer.sequence := by
    rw [hPc]
    rcases hNext with ⟨g', hg, rfl⟩ | ⟨rear, hg, rfl⟩
    · exact ⟨hSound.1 g' hg, rfl, hIn, hOp, hMax, (hSound.1 g' hg).later hLater⟩
    · exact ⟨hSound.2 rear hg, rfl, hIn, hOp, hMax, (hSound.2 rear hg).later hLater⟩
  obtain ⟨hReads', hInFlight, hOk'⟩ := hPicture
  have hLatest : UniInv R T (tr ++ [])
      { s.latest with
        memory := { s.memory with slots := m.slots }
        producer := { s.producer with pc } } :=
    h.latest.stay rfl hInFlight h.latest.clear rfl
      ⟨m.slots, s.memory.shutdownAtSequence, rfl⟩ hOk'
  have hCovered := h.covered
  rw [UniProducer.claimed, ← hInFlight] at hCovered
  have hKnows : Knows T Party.consumer? M.log (M.views (.handle 0)).current (T.last + 1)
      (s.producer.sequenceClearOfConsumers - R.size) := by
    rw [hLoaded.log, hLoaded.current]
    exact h.knows
  have hQuiet := h.quiet hWired hLatest rfl hLoaded.history hLoaded.grows hLoaded.others hMessages
    (.inl hLoaded.log) hKnows hReads' hCovered
  rwa [List.append_nil] at hQuiet

/-- **A step of the producer**, with a release store and an acquire fence. -/
theorem stepProducer (hWired : Wired T .uniProducer w) (hStore : o.cursorStore = true)
    (hFence : o.uniFence = true) (h : WeakUniInv R T tr s shown) {act : UniAct E} {k : Nat}
    (hRange : UniAct.InRange (.producer act))
    (hs : WeakUniSystem.step o R w s (.step (.producer act) k) = some (s', es)) :
    ∃ shown', WeakUniInv R T (tr ++ es) s' shown' := by
  rw [WeakUniSystem.step] at hs
  split at hs
  · cases hs
  rename_i p' _ hRun
  cases hs
  obtain ⟨M, m, m', M', hLoad, hProducer, hPerform, rfl⟩ := WeakSystem.run_cases hRun
  suffices hKept : ∃ shown', WeakUniInv R T (tr ++ es)
      { s with machine := M', slots := m'.slots, producer := p' } shown' from hKept
  have hLoaded := WeakSystem.load_cases h.messages.wellFormed hLoad
  have hStep := uniProducerStep_cases hProducer
  have hOk : s.producer.pc.Ok R T (s.pipeline tr) s.producer.sequence := h.latest.pc
  have hCovered := hStep.claimed_le_clear hOk h.covered
  -- a step that loads nothing is a step with the newest values
  have hNewest : s.producer.pc.loads R = none → M = s.machine ∧ m = s.memory ∧
      UniInv R T (tr ++ es) { s.latest with memory := m', producer := p' } := by
    intro hNone
    rw [hNone] at hLoad
    obtain ⟨rfl, rfl⟩ := Prod.mk.inj (Option.some.inj hLoad)
    refine ⟨rfl, rfl, h.latest.step hWired hRange ?_⟩
    rw [UniSystem.step]
    simp only [WeakSystem.latest, hProducer]
  have hDoes := hStep.does (o := o) hFence hOk fun q => hWired.consumerBarrier.sound
    (h.messages.represents (.inl rfl) s.slots (.handle 0)) q
  generalize s.producer.performs o m' p' = op at hDoes hPerform
  cases hDoes with
  | idle hLoads hSequence hClear hReads =>
    obtain ⟨rfl, rfl, hLatest⟩ := hNewest hLoads
    obtain rfl := Option.some.inj hPerform
    exact ⟨shown, h.idle hWired hLatest hSequence hClear hReads hCovered⟩
  | scan hPc hNext hp hEs =>
    obtain rfl := Option.some.inj hPerform
    subst hp hEs
    rw [List.append_nil]
    exact ⟨shown, h.scanned hWired hPc hLoaded hNext⟩
  | claim hPc hSequence hClear hReads =>
    obtain ⟨rfl, rfl, hLatest⟩ := hNewest (by rw [hPc]; rfl)
    have hPassed := h.reads
    rw [hPc] at hPassed
    have hKnows := h.messages.knows (le_refl (T.last + 1)) hPassed
    rw [Machine.perform?] at hPerform
    have hGrows := Grows.perform h.messages.wellFormed hPerform
    have hWf := h.messages.wellFormed.perform hPerform
    have hOthers := fun θ (hne : θ ≠ Party.handle 0) => Machine.perform_others hPerform hne
    obtain rfl := Option.some.inj hPerform
    exact ⟨shown, h.quiet hWired hLatest hSequence rfl hGrows hOthers (h.messages.views rfl rfl hWf)
      (.inl rfl) (hKnows.mono (by simp) (by omega)) (hReads _) hCovered⟩
  | write t slots hLoads hlo hhi hSequence hClear hReads =>
    obtain ⟨rfl, rfl, hLatest⟩ := hNewest hLoads
    exact ⟨shown, h.written hWired hlo hhi hPerform hLatest hSequence hClear hReads hCovered⟩
  | @publish op hPc hp =>
    obtain ⟨rfl, rfl, hLatest⟩ := hNewest (by rw [hPc]; rfl)
    subst hp
    rw [hPc] at hOk
    have hN : op.nI64 = op.n := Op.InRange.nI64 hOk
    rw [hStore] at hPerform
    have hMem : ∀ t, t ∈ publishedBy (tr ++ es) ↔ t < s.producer.sequence + op.nI64 :=
      fun t => hLatest.mem_publishedBy_iff
    refine h.stored hWired (by simp) hPerform ?_ rfl (fun _ => trivial) hCovered (fun t ht => ?_)
      (fun t _ _ => rfl) (fun _ t => ?_) (fun _ => rfl)
    · obtain ⟨hHistory, -, -⟩ := Machine.perform_store hPerform
      simp only [WeakSystem.latest, WeakSystem.memory, Machine.newest_of_history hHistory,
        Memory.ofValues_setCursor]
      exact hLatest
    · have : t < s.producer.sequence := h.latest.mem_publishedBy_iff.mp ht
      rw [hMem]
      omega
    · rw [hMem]
      omega
  | shutdown hPc hp =>
    obtain ⟨rfl, rfl, hLatest⟩ := hNewest (by rw [hPc]; rfl)
    subst hp
    have hSame : publishedBy (tr ++ es) = publishedBy tr := by
      ext t
      rw [hLatest.mem_publishedBy_iff, h.latest.mem_publishedBy_iff]
      exact Iff.rfl
    refine h.stored hWired (by simp) hPerform ?_ rfl (fun _ => trivial) hCovered hSame.ge
      (fun t ht hOld => absurd (hSame ▸ ht) hOld) trivial (fun hx => by cases hx)
    obtain ⟨hHistory, -, -⟩ := Machine.perform_store hPerform
    simp only [WeakSystem.latest, WeakSystem.memory, Machine.newest_of_history hHistory,
      Memory.ofValues_storeShutdown]
    exact hLatest

/-- **Another look at an event** that is lent to the closure. -/
theorem accessProducer (hWired : Wired T .uniProducer w) (h : WeakUniInv R T tr s shown) {t : Int}
    (hWrite : s.producer.pc.MayWrite s.producer.sequence t)
    (hs : s.access (.handle 0) t true = some (s', es)) :
    ∃ shown', WeakUniInv R T (tr ++ es) s' shown' := by
  unfold WeakSystem.access at hs
  split at hs
  · cases hs
  rename_i M' hPerform
  cases hs
  have hOk : s.producer.pc.Ok R T (s.pipeline tr) s.producer.sequence := h.latest.pc
  have hRange : s.producer.sequence ≤ t ∧ t ≤ s.producer.claimed ∧
      ∀ picture, s.producer.pc.Reads R T picture s.producer.sequence := by
    rw [UniProducer.claimed]
    generalize s.producer.pc = pc at hWrite hOk
    cases pc with
    | update op =>
      obtain rfl : t = s.producer.sequence := hWrite
      have hOne : op.nI64 = 1 := Op.nI64_of_not_isBatch hOk.2
      refine ⟨le_refl _, ?_, fun _ => trivial⟩
      show s.producer.sequence ≤ s.producer.sequence - 1 + op.nI64
      omega
    | updates op iter k =>
      obtain ⟨hlo, hhi⟩ : s.producer.sequence ≤ t ∧ t < iter.current := hWrite
      obtain ⟨hIn, -, hCurrent, hk⟩ := hOk
      have hN := hIn.nI64
      refine ⟨hlo, ?_, fun _ => trivial⟩
      show t ≤ s.producer.sequence - 1 + op.nI64
      omega
    | _ => exact hWrite.elim
  obtain ⟨hlo, hhi, hReads⟩ := hRange
  have hLatest : UniInv R T (tr ++ []) s.latest := by
    rw [List.append_nil]
    exact h.latest
  exact ⟨shown, h.written hWired hlo hhi hPerform hLatest rfl rfl hReads h.covered⟩

/-- **Every step keeps the invariant**, with the release store of the cursors and
the acquire fences of all that wait. -/
theorem step (hWired : Wired T .uniProducer w) (hStore : o.cursorStore = true)
    (hWait : o.waitFence = true) (hPoll : o.pollFence = true) (hUni : o.uniFence = true)
    (h : WeakUniInv R T tr s shown) {act : WeakAct (UniAct E)} (hRange : act.ok UniAct.InRange)
    (hs : WeakUniSystem.step o R w s act = some (s', es)) :
    ∃ shown', WeakUniInv R T (tr ++ es) s' shown' := by
  have hKeeps := UniInv.keeps (E := E) (R := R) hWired
  cases act with
  | step act k =>
    cases act with
    | consumer c act =>
      obtain ⟨shown', hMoved, hRest⟩ :=
        h.toWeakInv.stepConsumer hKeeps (.inl rfl) hWired hStore hWait hPoll hs
      exact ⟨shown', h.undisturbed hMoved hRest⟩
    | producer act => exact h.stepProducer hWired hStore hUni hRange hs
  | access θ t =>
    cases θ with
    | consumer c =>
      obtain ⟨hMoved, hRest⟩ := h.toWeakInv.accessConsumer hKeeps hWired hs
      exact ⟨shown, h.undisturbed hMoved hRest⟩
    | handle handle =>
      rw [WeakUniSystem.step] at hs
      split at hs
      · rename_i hWrite
        obtain ⟨rfl, hWrite⟩ := hWrite
        exact h.accessProducer hWired hWrite hs
      · cases hs

end WeakUniInv

/-- **The invariant holds in every reachable state.** -/
theorem WeakUniRun.inv (hWired : Wired T .uniProducer w) (hStore : o.cursorStore = true)
    (hWait : o.waitFence = true) (hPoll : o.pollFence = true) (hUni : o.uniFence = true)
    {s : WeakUniSystem E} (h : WeakUniRun o R w factory tr s) :
    ∃ shown, WeakUniInv R T tr s shown :=
  Run.induct (P := fun tr s => ∃ shown, WeakUniInv R T tr s shown) (WeakUniInv.init hWired)
    (fun _ hInv hRange hs =>
      have ⟨_, hInv⟩ := hInv
      hInv.step hWired hStore hWait hPoll hUni hRange hs) h

end Calvera
