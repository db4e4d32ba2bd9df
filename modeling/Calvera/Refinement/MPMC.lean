import Calvera.Refinement.Multi
import Calvera.Verification.MPMC

/-!
# Refinement — the code and `MPMC.tla`

With single-event calls and managed consumers, every step of a multi-producer
disruptor is an action of `MPMC` or none: the successful compare-exchange is
`BeginWrite`, the `fetch_xor` is `EndWrite`, and the start and the end of a call
of a handler are `BeginRead` and `EndRead`. Everything else stutters: the scan
of the availability bits, the cached bound, and the stores of the consumers'
cursors, which lag behind what the consumers have processed.

A closure that unwinds leaves its handle without a publication. To `MPMC` its
writer has stopped, and the handle goes on as another writer.
-/

namespace Calvera

open Calvera.Lib Calvera.Protocol Calvera.Verification

variable {E : Type} {R : RingSize} {T : Topology Nat} {w : Wiring} {factory : Nat → E}

-- ---------------------------------------------------------------------------
-- The refinement mapping
-- ---------------------------------------------------------------------------

/-- Calls are `publish` and `try_publish`. -/
def MultiAct.Single : Act (MultiAct E) → Prop
  | .producer (.handle _ (.call op)) => op.isBatch = false
  | _ => True

instance : DecidablePred (MultiAct.Single : Act (MultiAct E) → Prop)
  | .producer (.handle _ (.call op)) => inferInstanceAs (Decidable (op.isBatch = false))
  | .producer (.handle _ .tick) | .producer (.handle _ (.unwind _)) | .producer (.clone _)
  | .producer (.drop _) | .consumer _ _ => inferInstanceAs (Decidable True)

theorem MultiAct.Single.inRange {act : Act (MultiAct E)} (h : MultiAct.Single act) :
    MultiAct.InRange act := by
  have hCall : ∀ {op : Op E}, op.isBatch = false → op.InRange := fun hOp => by
    rw [Op.InRange, Op.n_of_not_isBatch hOp]
    decide
  cases act with
  | consumer c act => trivial
  | producer act =>
    cases act with
    | handle h act =>
      cases act with
      | call op => exact hCall h
      | _ => trivial
    | _ => trivial

/-- How many closures of handle `h` have unwound. -/
def unwinds (h : Nat) (tr : List (Event E)) : Nat :=
  tr.countP fun
    | .unwound h' _ _ => h' == h
    | _ => false

/-- A handle, and how many of its closures have unwound before. -/
abbrev Writer := Nat × Nat

/-- The constants of `MPMC` for a disruptor. -/
def mpmcConstants (R : RingSize) (w : Wiring) (writers : Set Writer) (maxPublished : Nat) :
    Constants Writer Nat where
  writers := writers
  readers := Finset.range w.consumers.length
  maxPublished := maxPublished
  size := R.size
  pos := R.pos

/-- The last sequence that a consumer has processed. -/
def ConsumerPc.processed (cursor : Int) : ConsumerPc → Int
  | .waitForEvents sequence _ | .checkShutdown sequence | .batch sequence _
  | .handler sequence _ => sequence - 1
  | _ => cursor

/-- The consumer is in a call of its handler. -/
def ConsumerPc.toPc : ConsumerPc → Pc
  | .handler _ _ => .advance
  | _ => .access

/-- The handle is between the compare-exchange and the `fetch_xor`. -/
def MultiPc.toPc : MultiPc E → Pc
  | .update _ | .publish _ => .advance
  | _ => .access

/-- The state of `MPMC` that a disruptor stands for. -/
structure MultiSystem.Maps (R : RingSize) (w : Wiring) (tr : List (Event E)) (s : MultiSystem E)
    (x : MPMC Writer Nat) : Prop where
  nextSequence : x.nextSequence = s.memory.cursor + 1
  published : ∀ i < R.size, x.published i = !s.memory.bit i
  read : ∀ c < w.consumers.length,
    x.read c = (s.consumers c).processed (s.memory.consumerCursors c)
  readerPc : ∀ c < w.consumers.length, x.pc (.inr c) = (s.consumers c).toPc
  writerPc : ∀ h, x.pc (.inl (h, unwinds h tr)) = (s.producer.handles h).pc.toPc
  claimedSequence : ∀ h, (s.producer.handles h).pc.toPc = .advance →
    x.claimedSequence (h, unwinds h tr) = (s.producer.handles h).claimedSequence
  /-- Later writers of a handle have not started. -/
  later : ∀ h k, unwinds h tr < k → x.pc (.inl (h, k)) = .access

/-- The action of `MPMC` that a possible step is, if it does not stutter. -/
def mpmcAction (tr : List (Event E)) (s : MultiSystem E) :
    Act (MultiAct E) → Option (MPMC.Action Writer Nat)
  | .consumer c _ =>
    match s.consumers c with
    | .batch sequence available => if sequence ≤ available then some (.beginRead c) else none
    | .handler _ _ => some (.endRead c)
    | _ => none
  | .producer (.handle h _) =>
    match (s.producer.handles h).pc with
    | .compareExchange _ current _ =>
      if s.memory.cursor = current then some (.beginWrite (h, unwinds h tr)) else none
    | .publish _ => some (.endWrite (h, unwinds h tr))
    | _ => none
  | _ => none

/-- A step of the code is its action, or stutters. -/
def MapsStep (K : Constants Writer Nat) (tr : List (Event E)) (s : MultiSystem E)
    (act : Act (MultiAct E)) (x x' : MPMC Writer Nat) : Prop :=
  match mpmcAction tr s act with
  | some action => action.Does K x x'
  | none => x' = x

-- ---------------------------------------------------------------------------
-- Steps of a handle
-- ---------------------------------------------------------------------------

/-- The call in progress is `publish` or `try_publish`. -/
def MultiPc.Single : MultiPc E → Prop
  | .current op | .check op _ _ | .getAfter op _ _ _ | .freeSlots op _ _ _
  | .compareExchange op _ _ | .update op | .publish op => op.isBatch = false
  | .updates _ _ _ | .publishRange _ _ => False
  | _ => True

/-- The next step is one that others see: a compare-exchange that succeeds, or a
`fetch_xor`. -/
def MultiPc.visible (cursor : Int) : MultiPc E → Bool
  | .publish _ => true
  | .compareExchange _ expected _ => cursor == expected
  | _ => false

/-- What a step of handle `h` is to `MPMC`. -/
inductive WriterMove (R : RingSize) (h : Nat) (m : Memory E) (p : MultiProducer E) :
    Memory E → MultiProducer E → List (Event E) → Prop
  | claim {op current nNext p' es} : p.pc = .compareExchange op current nNext →
      m.cursor = current → p'.pc = .update op → p'.claimedSequence = nNext →
      (∀ h', unwinds h' es = 0) → WriterMove R h m p (m.setCursor nNext) p' es
  | publish {op index mask p' es} : p.pc = .publish op →
      publishMask R p.claimedSequence = (index, mask) → p'.pc = .idle →
      (∀ h', unwinds h' es = 0) → WriterMove R h m p (m.fetchXor index mask) p' es
  | unwind {op slots p' lower upper} : p.pc = .update op → p'.pc = .idle →
      WriterMove R h m p { m with slots := slots } p' [.unwound h lower upper]
  | stutter {m' p' es} : p.pc.visible m.cursor = false → m'.cursor = m.cursor →
      m'.available = m.available → p'.pc.toPc = p.pc.toPc →
      p'.claimedSequence = p.claimedSequence → (∀ h', unwinds h' es = 0) →
      WriterMove R h m p m' p' es

/-- **With single-event calls**, a handle does nothing else. -/
theorem MultiStep.single {barrier : Barrier} {joins : List Nat} {exited : Nat → Bool} {h : Nat}
    {m m' : Memory E} {p p' : MultiProducer E} {act : HandleAct E} {es : List (Event E)}
    (hStep : MultiStep R barrier joins exited h m p act m' p' es) (hSingle : p.pc.Single)
    (hCall : ∀ op, act = .call op → op.isBatch = false) :
    p'.pc.Single ∧ WriterMove R h m p m' p' es := by
  -- steps outside the closure that leave cursor and bits alone
  have hQuiet : ∀ {pc' : MultiPc E} {m' p'}, p.pc.visible m.cursor = false →
      p.pc.toPc = .access → p'.pc = pc' → pc'.toPc = .access → m'.cursor = m.cursor →
      m'.available = m.available → p'.claimedSequence = p.claimedSequence →
      (∀ h', unwinds h' es = 0) → WriterMove R h m p m' p' es :=
    fun hVisible hPc hPc' hOut hCursor hBits hClaimed hNone =>
      .stutter hVisible hCursor hBits (by rw [hPc', hOut, hPc]) hClaimed hNone
  have hLoop : ∀ {op : Op E} {current : Int}, op.isBatch = false → p.pc.visible m.cursor = false →
      p.pc.toPc = .access → p.loop h op current = (p', es) →
      p'.pc.Single ∧ WriterMove R h m p m p' es := by
    intro op current hOp hVisible hPc hLoop
    rcases MultiProducer.loop_cases hLoop with ⟨rfl, rfl⟩ | ⟨rfl, rfl, -⟩
    · exact ⟨trivial, hQuiet hVisible hPc rfl rfl rfl rfl rfl (by simp [unwinds])⟩
    · exact ⟨hOp, hQuiet hVisible hPc rfl rfl rfl rfl rfl (by simp [unwinds])⟩
  cases hStep with
  | @call op hPc =>
    exact ⟨hCall op rfl, hQuiet (by simp [hPc, MultiPc.visible]) (by rw [hPc]; rfl) rfl rfl rfl rfl
      rfl (by simp [unwinds])⟩
  | load hPc hLoop' =>
    rw [hPc] at hSingle
    exact hLoop hSingle (by simp [hPc, MultiPc.visible]) (by rw [hPc]; rfl) hLoop'
  | retry hPc hne hLoop' =>
    rw [hPc] at hSingle
    exact hLoop hSingle (by simp [hPc, MultiPc.visible, hne]) (by rw [hPc]; rfl) hLoop'
  | @claim op current nNext _ _ hPc hEq hClaim =>
    rw [hPc] at hSingle
    have hBatch : op.isBatch = false := hSingle
    obtain ⟨rfl, rfl⟩ := Prod.mk.inj hClaim
    simp only [hBatch, Bool.false_eq_true, if_false]
    exact ⟨hBatch, .claim hPc hEq rfl rfl (by simp [unwinds])⟩
  | publish hPc hMask => exact ⟨trivial, .publish hPc hMask rfl (by simp [unwinds])⟩
  | update hPc =>
    rw [hPc] at hSingle
    refine ⟨hSingle, .stutter (by simp [hPc, MultiPc.visible]) rfl rfl ?_ rfl (by simp [unwinds])⟩
    rw [hPc]
    rfl
  | unwindUpdate hPc => exact ⟨trivial, .unwind hPc rfl⟩
  | refuse hPc hFree hlt hRefuse =>
    rw [hPc] at hSingle
    unfold MultiProducer.refuse at hRefuse
    split at hRefuse <;> obtain ⟨rfl, rfl⟩ := Prod.mk.inj hRefuse
    · exact ⟨hSingle, hQuiet (by simp [hPc, MultiPc.visible]) (by rw [hPc]; rfl) rfl rfl rfl rfl rfl
        (by simp [unwinds])⟩
    · exact ⟨trivial, hQuiet (by simp [hPc, MultiPc.visible]) (by rw [hPc]; rfl) rfl rfl rfl rfl rfl
        (by simp [unwinds])⟩
  | slow hPc | fast hPc | read hPc | answer hPc | accept hPc =>
    rw [hPc] at hSingle
    exact ⟨hSingle, hQuiet (by simp [hPc, MultiPc.visible]) (by rw [hPc]; rfl) rfl rfl rfl rfl rfl
      (by simp [unwinds])⟩
  | overflow hPc | shutdownCurrent hPc | shutdownStore hPc | join hPc | joined hPc =>
    exact ⟨trivial, hQuiet (by simp [hPc, MultiPc.visible]) (by rw [hPc]; rfl) rfl rfl rfl rfl rfl
      (by simp [unwinds])⟩
  | updatesEnd hPc | updatesNext hPc | unwindEnd hPc | unwindNext hPc | mask hPc | commit hPc
  | commitEnd hPc | rangeEnd hPc =>
    -- calls that publish a batch
    rw [hPc] at hSingle
    exact hSingle.elim

-- ---------------------------------------------------------------------------
-- The simulation
-- ---------------------------------------------------------------------------

@[simp] theorem unwinds_append (h : Nat) (tr es : List (Event E)) :
    unwinds h (tr ++ es) = unwinds h tr + unwinds h es :=
  List.countP_append

/-- Where none unwinds, the handle is the same writer. -/
theorem unwinds_append_of_zero {h : Nat} {tr es : List (Event E)} (hNone : unwinds h es = 0) :
    unwinds h (tr ++ es) = unwinds h tr := by
  rw [unwinds_append, hNone, Nat.add_zero]

/-- The handle's present writer moves, and the later ones have not started. -/
theorem MultiSystem.Maps.later_update {tr : List (Event E)} {s : MultiSystem E}
    {x : MPMC Writer Nat} (hMaps : s.Maps R w tr x) {h k : Nat} (hk : unwinds h tr < k) (pc : Pc) :
    Function.update x.pc (.inl (h, unwinds h tr)) pc (.inl (h, k)) = .access := by
  have hne : (.inl (h, k) : Writer ⊕ Nat) ≠ .inl (h, unwinds h tr) := by
    simp only [ne_eq, Sum.inl.injEq, Prod.mk.injEq, true_and]
    omega
  rw [Function.update_of_ne hne]
  exact hMaps.later h k hk

/-- Consumers do not unwind closures of producers. -/
theorem unwinds_ofConsumer {es : List (Event E)} (h : ∀ e ∈ es, e.OfConsumer) (h' : Nat) :
    unwinds h' es = 0 := by
  rw [unwinds, List.countP_eq_zero]
  intro e he
  have := h e he
  cases e <;> simp_all [Event.OfConsumer]

/-- What the simulation keeps. -/
structure MultiSystem.Simulated (R : RingSize) (w : Wiring) (tr : List (Event E))
    (s : MultiSystem E) (x : MPMC Writer Nat) : Prop where
  maps : s.Maps R w tr x
  single : ∀ h, (s.producer.handles h).pc.Single
  managed : ∀ c < w.consumers.length, (s.consumers c).ofPoller = false

/-- What bounds a run: at most `MaxPublished` claims, and all writers have a name. -/
def MultiSystem.Within (K : Constants Writer Nat) (tr : List (Event E)) (s : MultiSystem E) :
    Prop :=
  s.memory.cursor < K.maxPublished ∧
    ∀ h < s.producer.nextHandle, ∀ k ≤ unwinds h tr, (h, k) ∈ K.writers

/-- The stored cursor lags behind what is processed. -/
theorem ConsumerPc.Ok.cursor_le_processed {pc : ConsumerPc} {a : State Nat} {c : Nat}
    {producerBarrier : Barrier} (h : pc.Ok R T producerBarrier a c) :
    a.cursor c ≤ pc.processed (a.cursor c) := by
  cases pc with
  | waitForEvents q g =>
    have hq : q = a.cursor c + 1 := h.1
    show _ ≤ q - 1
    omega
  | checkShutdown q =>
    have hq : q = a.cursor c + 1 := h
    show _ ≤ q - 1
    omega
  | batch q v =>
    have hq : a.cursor c < q := h.1
    show _ ≤ q - 1
    omega
  | handler q v =>
    have hq : a.cursor c < q := h.1
    show _ ≤ q - 1
    omega
  | _ => exact le_refl _

namespace MultiSystem.Simulated

variable {K : Constants Writer Nat} {tr es : List (Event E)} {s : MultiSystem E}
  {x : MPMC Writer Nat}

theorem init (hManaged : ∀ spec ∈ w.consumers, spec.kind ≠ .poller) :
    (MultiSystem.init R w factory).Simulated R w [] MPMC.initial := by
  have hHandle : ∀ h, ((SharedProducers.new R).handles h : MultiProducer E).pc.toPc = .access ∧
      ((SharedProducers.new R).handles h : MultiProducer E).pc.Single := by
    intro h
    simp only [SharedProducers.new, Function.update_apply]
    split <;> exact ⟨rfl, trivial⟩
  -- consumers start before sequence `0`
  have hConsumer : ∀ c < w.consumers.length, ∃ g,
      (MultiSystem.init R w factory).consumers c = .waitForEvents 0 g := by
    intro c hc
    have hSpec : w.consumers[c]? = some w.consumers[c] := List.getElem?_eq_getElem hc
    have hKind := hManaged _ (List.getElem_mem hc)
    refine ⟨w.consumers[c].dependentBarrier.getAfter 0, ?_⟩
    simp only [MultiSystem.init, System.init, hSpec, ConsumerSpec.start]
  refine ⟨⟨rfl, ?_, ?_, ?_, fun h => (hHandle h).1.symm, ?_, fun _ _ _ => rfl⟩,
    fun h => (hHandle h).2, ?_⟩
  · intro i _
    show false = !(Memory.init factory).bit i
    rw [Memory.init_bit]
    rfl
  · intro c hc
    obtain ⟨g, hg⟩ := hConsumer c hc
    rw [hg]
    rfl
  · intro c hc
    obtain ⟨g, hg⟩ := hConsumer c hc
    rw [hg]
    rfl
  · intro h hPc
    have hIdle := (hHandle h).1.symm.trans hPc
    cases hIdle
  · intro c hc
    obtain ⟨g, hg⟩ := hConsumer c hc
    rw [hg]
    rfl

/-- A flag shows its round. -/
theorem isPublished (hS : s.Simulated R w tr x) (hInv : MultiInv R T tr s) {c : Nat}
    (hMem : c ∈ T.members) {t : Int} (hlo : s.memory.consumerCursors c < t)
    (hhi : t ≤ (s.consumers c).granted (s.memory.consumerCursors c)) (hSize : K.size = R.size) :
    x.IsPublished K t := by
  obtain ⟨-, hEnc⟩ := hInv.consistent.represents.published
  have hClaimed := hInv.consistent.inv.granted_le_claimed hMem
  have hRound := hInv.cursor_le hMem
  have hGranted : t ≤ s.memory.cursor := hhi.trans hClaimed
  rw [MPMC.isPublished_iff, hSize, hS.maps.published _ (slotOf_lt R.pos t), Bool.not_not]
  refine (hEnc.bit_iff R.pos (hInv.consistent.lap hMem) hlo (by omega)).mpr ?_
  exact hInv.consistent.inv.granted_published hMem hhi

section Consumer

variable {c : Nat} {spec : ConsumerSpec} {act : ConsumerAct} {memory : Memory E} {pc : ConsumerPc}

/-- A consumer moved, and at most its own part of the state. -/
theorem consumer_moved (hS : s.Simulated R w tr x) (hSpec : w.consumers[c]? = some spec)
    (hStep : ConsumerStep R spec.dependentBarrier c s.memory (s.consumers c) memory pc es)
    {x' : MPMC Writer Nat} (hNext : x'.nextSequence = x.nextSequence)
    (hPublished : x'.published = x.published) (hClaimed : x'.claimedSequence = x.claimedSequence)
    (hWriters : ∀ v, x'.pc (.inl v) = x.pc (.inl v))
    (hOther : ∀ c' ≠ c, x'.read c' = x.read c' ∧ x'.pc (.inr c') = x.pc (.inr c'))
    (hRead : x'.read c = pc.processed (memory.consumerCursors c))
    (hPc : x'.pc (.inr c) = pc.toPc) :
    MultiSystem.Simulated R w (tr ++ es)
      { s with memory := memory, consumers := Function.update s.consumers c pc } x' := by
  have hc : c < w.consumers.length := (List.getElem?_eq_some_iff.mp hSpec).1
  have hNone := unwinds_ofConsumer hStep.ofConsumer
  have hMaps := hS.maps
  obtain ⟨hCursor, hBit⟩ : memory.cursor = s.memory.cursor ∧ memory.bit = s.memory.bit := by
    rcases hStep.memory with rfl | ⟨v, rfl⟩ <;> exact ⟨rfl, rfl⟩
  refine ⟨⟨?_, ?_, ?_, ?_, ?_, ?_, ?_⟩, hS.single, ?_⟩
  · rw [hNext, hCursor]
    exact hMaps.nextSequence
  · intro i hi
    rw [hPublished, hBit]
    exact hMaps.published i hi
  · intro c' hc'
    show x'.read c' =
      (Function.update s.consumers c pc c').processed (memory.consumerCursors c')
    rcases eq_or_ne c' c with rfl | hne
    · rw [Function.update_self]
      exact hRead
    · rw [Function.update_of_ne hne, hStep.cursor_ne hne, (hOther c' hne).1]
      exact hMaps.read c' hc'
  · intro c' hc'
    show x'.pc (.inr c') = (Function.update s.consumers c pc c').toPc
    rcases eq_or_ne c' c with rfl | hne
    · rw [Function.update_self]
      exact hPc
    · rw [Function.update_of_ne hne, (hOther c' hne).2]
      exact hMaps.readerPc c' hc'
  · intro h
    rw [unwinds_append_of_zero (hNone h), hWriters]
    exact hMaps.writerPc h
  · intro h hAdvance
    rw [unwinds_append_of_zero (hNone h), hClaimed]
    exact hMaps.claimedSequence h hAdvance
  · intro h k hk
    rw [unwinds_append_of_zero (hNone h)] at hk
    rw [hWriters]
    exact hMaps.later h k hk
  · intro c' hc'
    show (Function.update s.consumers c pc c').ofPoller = false
    rcases eq_or_ne c' c with rfl | hne
    · rw [Function.update_self, hStep.ofPoller]
      exact hS.managed c' hc'
    · rw [Function.update_of_ne hne]
      exact hS.managed c' hc'

/-- **A step of a consumer.** -/
theorem consumer (hS : s.Simulated R w tr x) (hWired : Wired T .multiProducer w)
    (hInv : MultiInv R T tr s) (writers : Set Writer) (maxPublished : Nat)
    (hSpec : w.consumers[c]? = some spec)
    (hStep : ConsumerStep R spec.dependentBarrier c s.memory (s.consumers c) memory pc es) :
    ∃ x', MapsStep (mpmcConstants R w writers maxPublished) tr s (.consumer c act) x x' ∧
      MultiSystem.Simulated R w (tr ++ es)
        { s with memory := memory, consumers := Function.update s.consumers c pc } x' := by
  have hc : c < w.consumers.length := (List.getElem?_eq_some_iff.mp hSpec).1
  have hMem : c ∈ T.members := hWired.mem hSpec
  have hReader : c ∈ (mpmcConstants R w writers maxPublished).readers := Finset.mem_range.mpr hc
  have hOk := hInv.consistent.consumers c hMem
  have hRead := hS.maps.read c hc
  have hPcs := hS.maps.readerPc c hc
  have hManaged := hS.managed c hc
  have hMoved := @consumer_moved E R w tr es s x c spec memory pc hS hSpec hStep
  -- a step that is no action
  have hStutter : mpmcAction tr s (.consumer c act) = none →
      pc.processed (memory.consumerCursors c) = x.read c → pc.toPc = x.pc (.inr c) →
      ∃ x', MapsStep (mpmcConstants R w writers maxPublished) tr s (.consumer c act) x x' ∧
        MultiSystem.Simulated R w (tr ++ es)
          { s with memory := memory, consumers := Function.update s.consumers c pc } x' := by
    intro hNone hProcessed hPc
    refine ⟨x, ?_, hMoved rfl rfl rfl (fun _ => rfl) (fun _ _ => ⟨rfl, rfl⟩) hProcessed.symm
      hPc.symm⟩
    rw [MapsStep, hNone]
  generalize hAt : s.consumers c = pc₀ at hStep hOk hRead hPcs hManaged
  cases hStep with
  | waitRead _ => exact hStutter (by simp [mpmcAction, hAt]) hRead.symm hPcs.symm
  | waitMiss _ _ => exact hStutter (by simp [mpmcAction, hAt]) hRead.symm hPcs.symm
  | waitHit _ _ => exact hStutter (by simp [mpmcAction, hAt]) hRead.symm hPcs.symm
  | retry _ => exact hStutter (by simp [mpmcAction, hAt]) hRead.symm hPcs.symm
  | @exit q _ =>
    have hq : q = s.memory.consumerCursors c + 1 := hOk
    have hRead' : x.read c = q - 1 := hRead
    refine hStutter (by simp [mpmcAction, hAt]) ?_ hPcs.symm
    show s.memory.consumerCursors c = x.read c
    omega
  | @store q v hlt =>
    -- only the cursor is stored, which the mapping does not read
    refine hStutter ?_ hRead.symm hPcs.symm
    simp [mpmcAction, hAt, hlt]
  | @handle q v hle =>
    have hRead' : x.read c = q - 1 := hRead
    have hCursor : s.memory.consumerCursors c < q := hOk.1
    have hPublished : x.IsPublished (mpmcConstants R w writers maxPublished) (x.read c + 1) := by
      rw [hRead', Int.sub_add_cancel]
      refine hS.isPublished hInv hMem hCursor ?_ rfl
      rw [hAt]
      exact hle
    have hAction : mpmcAction tr s (.consumer c act) = some (.beginRead c) := by
      simp [mpmcAction, hAt, hle]
    obtain ⟨x', hDoes⟩ : ∃ x', MPMC.BeginRead (mpmcConstants R w writers maxPublished) c x x' :=
      ⟨_, hPublished, hPcs, rfl⟩
    have hEq := hDoes.2.2
    refine ⟨x', ?_, hMoved (by rw [hEq]) (by rw [hEq]) (by rw [hEq]) (fun v => by rw [hEq]; rfl)
      (fun c' hne => ⟨by rw [hEq], ?_⟩) (by rw [hEq]; exact hRead) ?_⟩
    · rw [MapsStep, hAction]
      exact ⟨hReader, hDoes⟩
    · rw [hEq]
      exact Function.update_of_ne (by simpa using hne) ..
    · rw [hEq]
      exact Function.update_self ..
  | @handled q v =>
    have hRead' : x.read c = q - 1 := hRead
    have hAction : mpmcAction tr s (.consumer c act) = some (.endRead c) := by
      simp [mpmcAction, hAt]
    obtain ⟨x', hDoes⟩ : ∃ x', MPMC.EndRead (mpmcConstants R w writers maxPublished) c x x' :=
      ⟨_, hPcs, rfl⟩
    have hEq := hDoes.2
    refine ⟨x', ?_, hMoved (by rw [hEq]) (by rw [hEq]) (by rw [hEq]) (fun v => by rw [hEq]; rfl)
      (fun c' hne => ⟨?_, ?_⟩) ?_ ?_⟩
    · rw [MapsStep, hAction]
      exact ⟨hReader, hDoes⟩
    · rw [hEq]
      exact Function.update_of_ne hne ..
    · rw [hEq]
      exact Function.update_of_ne (by simpa using hne) ..
    · rw [hEq]
      show Function.update x.read c (x.read c + 1) c = q + 1 - 1
      rw [Function.update_self]
      omega
    · rw [hEq]
      exact Function.update_self ..
  | _ => cases hManaged

end Consumer

section Handle

variable {h : Nat} {memory : Memory E} {p' : MultiProducer E} {ps : SharedProducers E}

/-- A handle moved, and at most its own part of the state and what is shared. -/
theorem handle_moved (hS : s.Simulated R w tr x)
    (hHandles : ps.handles = Function.update s.producer.handles h p')
    (hCursors : memory.consumerCursors = s.memory.consumerCursors)
    (hUnwinds : ∀ h' ≠ h, unwinds h' es = 0) (hSingle : p'.pc.Single) {x' : MPMC Writer Nat}
    (hNext : x'.nextSequence = memory.cursor + 1)
    (hPublished : ∀ i < R.size, x'.published i = !memory.bit i)
    (hReaders : ∀ c, x'.read c = x.read c ∧ x'.pc (.inr c) = x.pc (.inr c))
    (hOther : ∀ h' ≠ h, ∀ k, x'.pc (.inl (h', k)) = x.pc (.inl (h', k)) ∧
      x'.claimedSequence (h', k) = x.claimedSequence (h', k))
    (hPc : x'.pc (.inl (h, unwinds h (tr ++ es))) = p'.pc.toPc)
    (hClaimed : p'.pc.toPc = .advance →
      x'.claimedSequence (h, unwinds h (tr ++ es)) = p'.claimedSequence)
    (hLater : ∀ k, unwinds h (tr ++ es) < k → x'.pc (.inl (h, k)) = .access) :
    MultiSystem.Simulated R w (tr ++ es) { s with memory := memory, producer := ps } x' := by
  have hMaps := hS.maps
  have hSame : ∀ h' ≠ h, unwinds h' (tr ++ es) = unwinds h' tr :=
    fun h' hne => unwinds_append_of_zero (hUnwinds h' hne)
  refine ⟨⟨hNext, hPublished, ?_, ?_, ?_, ?_, ?_⟩, ?_, hS.managed⟩
  · intro c hc
    rw [(hReaders c).1, hMaps.read c hc, hCursors]
  · intro c hc
    rw [(hReaders c).2, hMaps.readerPc c hc]
  · intro h'
    show _ = (ps.handles h').pc.toPc
    rw [hHandles]
    rcases eq_or_ne h' h with rfl | hne
    · rw [Function.update_self]
      exact hPc
    · rw [Function.update_of_ne hne, hSame h' hne, (hOther h' hne _).1]
      exact hMaps.writerPc h'
  · intro h' hAdvance
    change (ps.handles h').pc.toPc = .advance at hAdvance
    show _ = (ps.handles h').claimedSequence
    rw [hHandles] at hAdvance ⊢
    rcases eq_or_ne h' h with rfl | hne
    · rw [Function.update_self] at hAdvance ⊢
      exact hClaimed hAdvance
    · rw [Function.update_of_ne hne] at hAdvance ⊢
      rw [hSame h' hne, (hOther h' hne _).2]
      exact hMaps.claimedSequence h' hAdvance
  · intro h' k hk
    rcases eq_or_ne h' h with rfl | hne
    · exact hLater k hk
    · rw [hSame h' hne] at hk
      rw [(hOther h' hne k).1]
      exact hMaps.later h' k hk
  · intro h'
    show (ps.handles h').pc.Single
    rw [hHandles]
    rcases eq_or_ne h' h with rfl | hne
    · rw [Function.update_self]
      exact hSingle
    · rw [Function.update_of_ne hne]
      exact hS.single h'

/-- **The guard of `BeginWrite`**: the cached bound is within one round of every
consumer's stored cursor, and that is not ahead of what the consumer has processed. -/
theorem minRead (hS : s.Simulated R w tr x) (hWired : Wired T .multiProducer w)
    (hInv : MultiInv R T tr s) (writers : Set Writer) (maxPublished : Nat)
    (hClear : x.nextSequence ≤ (s.producer.handles h).sequenceClearOfConsumers) :
    ∃ minRead, x.IsMinReadSequence (mpmcConstants R w writers maxPublished) minRead ∧
      x.nextSequence - R.size ≤ minRead := by
  obtain ⟨c₀, hMem₀⟩ := T.nonempty
  have hSome : (Finset.range w.consumers.length).Nonempty :=
    ⟨c₀, Finset.mem_range.mpr ((hWired.mem_iff c₀).mp hMem₀)⟩
  obtain ⟨c, hReader, hMin⟩ := Finset.exists_min_image _ x.read hSome
  have hc : c < w.consumers.length := Finset.mem_range.mp hReader
  have hMem : c ∈ T.members := (hWired.mem_iff c).mpr hc
  have hProcessed : s.memory.consumerCursors c ≤
      (s.consumers c).processed (s.memory.consumerCursors c) :=
    (hInv.consistent.consumers c hMem).cursor_le_processed
  have hBound := hInv.clear h c hMem
  refine ⟨x.read c, ⟨⟨c, hReader, rfl⟩, hMin⟩, ?_⟩
  rw [hS.maps.read c hc]
  omega

theorem mpmcAction_of_not_visible {act : HandleAct E}
    (hVisible : (s.producer.handles h).pc.visible s.memory.cursor = false) :
    mpmcAction tr s (.producer (.handle h act)) = none := by
  unfold mpmcAction
  cases hPc : (s.producer.handles h).pc with
  | publish op => simp [hPc, MultiPc.visible] at hVisible
  | compareExchange op current nNext =>
    rw [hPc] at hVisible
    have hne : s.memory.cursor ≠ current := by simpa [MultiPc.visible] using hVisible
    simp [hPc, hne]
  | _ => simp [hPc]

/-- The `fetch_xor` flips the flag of the slot. -/
theorem publish_eq {writers : Set Writer} {maxPublished index : Nat} {mask : BitVec 64}
    {sequence : Int} {m : Memory E} (hMask : publishMask R sequence = (index, mask))
    (hPublished : ∀ i < R.size, x.published i = !m.bit i) {i : Nat} (hi : i < R.size) :
    x.publish (mpmcConstants R w writers maxPublished) sequence i =
      !(m.fetchXor index mask).bit i := by
  have hMarks := (publishMask_marks hMask).iff i
  rw [m.fetchXor_bit, MPMC.publish, Function.update_apply, RingBuffer.indexOf_eq,
    Verification.xor_true]
  show (if i = slotOf R.size sequence then !x.published (slotOf R.size sequence) else _) = _
  by_cases hSlot : i = slotOf R.size sequence
  · have hFlip := hMarks.mpr ⟨sequence, le_refl _, le_refl _, hSlot.symm⟩
    rw [if_pos hSlot, if_pos hFlip, ← hSlot, hPublished i hi]
  · have hKeep : ¬ (i / 64 = index ∧ mask.getLsbD (i % 64) = true) := by
      intro hFlip
      obtain ⟨t, hlo, hhi, ht⟩ := hMarks.mp hFlip
      exact hSlot (by rw [← ht, le_antisymm hhi hlo])
    rw [if_neg hSlot, if_neg hKeep]
    exact hPublished i hi

/-- **A step of a handle.** -/
theorem handle (hS : s.Simulated R w tr x) (hWired : Wired T .multiProducer w)
    (hInv : MultiInv R T tr s) {writers : Set Writer} {maxPublished : Nat} {act : HandleAct E}
    (hName : h < s.producer.nextHandle)
    (hWithin : MultiSystem.Within (mpmcConstants R w writers maxPublished) (tr ++ es)
      { s with memory := memory, producer := s.producer.setHandle h p' })
    (hSingle : p'.pc.Single)
    (hMove : WriterMove R h s.memory (s.producer.handles h) memory p' es)
    (hCursors : memory.consumerCursors = s.memory.consumerCursors) :
    ∃ x', MapsStep (mpmcConstants R w writers maxPublished) tr s (.producer (.handle h act)) x x' ∧
      MultiSystem.Simulated R w (tr ++ es)
        { s with memory := memory, producer := s.producer.setHandle h p' } x' := by
  set K := mpmcConstants R w writers maxPublished
  have hMaps := hS.maps
  have hMoved :=
    @handle_moved E R w tr es s x h memory p' (s.producer.setHandle h p') hS rfl hCursors
  have hWriterPc := hMaps.writerPc h
  have hWriter : (h, unwinds h tr) ∈ K.writers := by
    refine hWithin.2 h hName _ ?_
    rw [unwinds_append]
    exact Nat.le_add_right ..
  cases hMove with
  | @claim op current nNext p' es hPc hCurrent hPc' hClaimed hNone =>
    have hSame : unwinds h (tr ++ es) = unwinds h tr := unwinds_append_of_zero (hNone h)
    have hAction : mpmcAction tr s (.producer (.handle h act)) =
        some (.beginWrite (h, unwinds h tr)) := by
      simp [mpmcAction, hPc, hCurrent]
    have hOk := hInv.handle h
    unfold MultiProducer.Ok at hOk
    simp only [hPc] at hOk
    obtain ⟨hTarget, hle⟩ := hOk
    have hBatch : op.isBatch = false := by
      have := hS.single h
      rw [hPc] at this
      exact this
    have hNext : x.nextSequence = nNext := by
      rw [hMaps.nextSequence, hCurrent, hTarget.next, Op.nI64_of_not_isBatch hBatch]
    have hMax : nNext < maxPublished := hWithin.1
    rw [hPc] at hWriterPc
    obtain ⟨x', hDoes⟩ : ∃ x', MPMC.BeginWrite K (h, unwinds h tr) x x' :=
      ⟨_, hS.minRead hWired hInv writers maxPublished (hNext ▸ hle), hNext ▸ hMax, hWriterPc, rfl⟩
    have hEq := hDoes.2.2.2
    refine ⟨x', ?_, hMoved (fun h' _ => hNone h') hSingle ?_ ?_ ?_ ?_ ?_ ?_ ?_⟩
    · rw [MapsStep, hAction]
      exact ⟨hWriter, hDoes⟩
    · rw [hEq, ← hNext]
      rfl
    · rw [hEq]
      exact hMaps.published
    · intro c
      rw [hEq]
      exact ⟨rfl, rfl⟩
    · intro h' hne k
      rw [hEq]
      refine ⟨Function.update_of_ne ?_ .., Function.update_of_ne ?_ ..⟩ <;> simp [hne]
    · rw [hEq, hSame, hPc']
      exact Function.update_self ..
    · intro _
      rw [hEq, hSame, hClaimed, ← hNext]
      exact Function.update_self ..
    · intro k hk
      rw [hSame] at hk
      rw [hEq]
      exact hMaps.later_update hk _
  | @publish op index mask p' es hPc hMask hPc' hNone =>
    have hSame : unwinds h (tr ++ es) = unwinds h tr := unwinds_append_of_zero (hNone h)
    have hAction : mpmcAction tr s (.producer (.handle h act)) =
        some (.endWrite (h, unwinds h tr)) := by
      simp [mpmcAction, hPc]
    have hClaimed := hMaps.claimedSequence h (by rw [hPc]; rfl)
    rw [hPc] at hWriterPc
    obtain ⟨x', hDoes⟩ : ∃ x', MPMC.EndWrite K (h, unwinds h tr) x x' := ⟨_, hWriterPc, rfl⟩
    have hEq := hDoes.2
    refine ⟨x', ?_, hMoved (fun h' _ => hNone h') hSingle ?_ ?_ ?_ ?_ ?_ ?_ ?_⟩
    · rw [MapsStep, hAction]
      exact ⟨hWriter, hDoes⟩
    · rw [hEq]
      exact hMaps.nextSequence
    · intro i hi
      rw [hEq]
      show x.publish K (x.claimedSequence (h, unwinds h tr)) i = _
      rw [hClaimed]
      exact publish_eq hMask hMaps.published hi
    · intro c
      rw [hEq]
      exact ⟨rfl, rfl⟩
    · intro h' hne k
      rw [hEq]
      refine ⟨Function.update_of_ne ?_ .., rfl⟩
      simp [hne]
    · rw [hEq, hSame, hPc']
      exact Function.update_self ..
    · intro hAdvance
      rw [hPc'] at hAdvance
      cases hAdvance
    · intro k hk
      rw [hSame] at hk
      rw [hEq]
      exact hMaps.later_update hk _
  | @unwind op slots p' lower upper hPc hPc' =>
    -- the writer has stopped, and the next one has not started
    have hNext : unwinds h (tr ++ [.unwound h lower upper]) = unwinds h tr + 1 := by
      rw [unwinds_append]
      simp [unwinds]
    have hAction : mpmcAction tr s (.producer (.handle h act)) = none := by
      simp [mpmcAction, hPc]
    refine ⟨x, ?_, hMoved ?_ hSingle hMaps.nextSequence hMaps.published
      (fun _ => ⟨rfl, rfl⟩) (fun _ _ _ => ⟨rfl, rfl⟩) ?_ ?_ ?_⟩
    · rw [MapsStep, hAction]
    · intro h' hne
      simp [unwinds, hne.symm]
    · rw [hNext, hPc']
      exact hMaps.later h _ (Nat.lt_succ_self _)
    · intro hAdvance
      rw [hPc'] at hAdvance
      cases hAdvance
    · intro k hk
      rw [hNext] at hk
      exact hMaps.later h k (by omega)
  | stutter hVisible hCursor hBits hPc' hClaimed hNone =>
    have hSame : unwinds h (tr ++ es) = unwinds h tr := unwinds_append_of_zero (hNone h)
    have hBit : memory.bit = s.memory.bit := by
      funext i
      rw [Memory.bit, hBits]
      rfl
    refine ⟨x, ?_, hMoved (fun h' _ => hNone h') hSingle ?_ ?_
      (fun _ => ⟨rfl, rfl⟩) (fun _ _ _ => ⟨rfl, rfl⟩) ?_ ?_ ?_⟩
    · rw [MapsStep, mpmcAction_of_not_visible hVisible]
    · rw [hCursor]
      exact hMaps.nextSequence
    · intro i hi
      rw [hBit]
      exact hMaps.published i hi
    · rw [hSame, hPc']
      exact hWriterPc
    · intro hAdvance
      rw [hSame, hClaimed]
      exact hMaps.claimedSequence h (hPc' ▸ hAdvance)
    · intro k hk
      rw [hSame] at hk
      exact hMaps.later h k hk

end Handle

/-- **Every step** is its action, or stutters. -/
theorem step (hS : s.Simulated R w tr x) (hWired : Wired T .multiProducer w)
    (hInv : MultiInv R T tr s) {writers : Set Writer} {maxPublished : Nat} {act : Act (MultiAct E)}
    {s' : MultiSystem E} (hAct : MultiAct.Single act)
    (hs : MultiSystem.step R w s act = some (s', es))
    (hWithin : s'.Within (mpmcConstants R w writers maxPublished) (tr ++ es)) :
    ∃ x', MapsStep (mpmcConstants R w writers maxPublished) tr s act x x' ∧
      s'.Simulated R w (tr ++ es) x' := by
  have hMaps := hS.maps
  -- handles that come and go are idle
  have hIdle : ∀ {h : Nat} {p' : MultiProducer E} {ps : SharedProducers E},
      ps.handles = Function.update s.producer.handles h p' → p'.pc.toPc = .access → p'.pc.Single →
      (s.producer.handles h).pc.toPc = .access → mpmcAction tr s act = none →
      ∃ x', MapsStep (mpmcConstants R w writers maxPublished) tr s act x x' ∧
        MultiSystem.Simulated R w (tr ++ []) { s with producer := ps } x' := by
    intro h p' ps hHandles hOut hSingle hPc hNone
    refine ⟨x, by rw [MapsStep, hNone], ?_⟩
    refine hS.handle_moved hHandles rfl (fun _ _ => rfl) hSingle hMaps.nextSequence hMaps.published
      (fun _ => ⟨rfl, rfl⟩) (fun _ _ _ => ⟨rfl, rfl⟩) ?_ (fun hAdvance => ?_) ?_
    · rw [List.append_nil, hMaps.writerPc, hOut, hPc]
    · rw [hOut] at hAdvance
      cases hAdvance
    · rw [List.append_nil]
      exact hMaps.later h
  cases multiStep_cases hs with
  | consumer hSpec hStep => exact hS.consumer hWired hInv writers maxPublished hSpec hStep
  | @handle h act memory p' es hStep =>
    have hName := hInv.name_lt hStep.present
    obtain ⟨hSingle, hMove⟩ := hStep.single (hS.single h) fun op hCall => by
      subst hCall
      exact hAct
    exact hS.handle hWired hInv hName hWithin hSingle hMove hStep.consumerCursors
  | clone hPc hLocked =>
    refine hIdle rfl rfl trivial ?_ rfl
    rw [hInv.absent _ (le_refl _)]
    rfl
  | dropLast hPc hCounter => exact hIdle rfl rfl trivial (by rw [hPc]; rfl) rfl
  | drop hPc hCounter => exact hIdle rfl rfl trivial (by rw [hPc]; rfl) rfl

end MultiSystem.Simulated

/-- What bounds a run bounds its beginnings. -/
theorem MultiSystem.Within.before {K : Constants Writer Nat} {tr es : List (Event E)}
    {s s' : MultiSystem E} {act : Act (MultiAct E)} (hWithin : s'.Within K (tr ++ es))
    (hInv : MultiInv R T tr s) (hs : MultiSystem.step R w s act = some (s', es)) :
    s.Within K tr := by
  obtain ⟨hMax, hWriters⟩ := hWithin
  have hGrows : s.memory.cursor ≤ s'.memory.cursor ∧
      s.producer.nextHandle ≤ s'.producer.nextHandle := by
    cases multiStep_cases hs with
    | consumer hSpec hStep =>
      rcases hStep.memory with rfl | ⟨v, rfl⟩ <;> exact ⟨le_refl _, le_refl _⟩
    | @handle h act memory p' es hStep =>
      refine ⟨?_, le_refl _⟩
      cases hStep with
      | @claim op current nNext _ _ hPc hCurrent hClaim =>
        have hOk := hInv.handle h
        unfold MultiProducer.Ok at hOk
        simp only [hPc] at hOk
        have hNext := hOk.1.next
        have hN := hOk.1.inRange.nI64
        show s.memory.cursor ≤ nNext
        omega
      | _ => exact le_refl _
    | clone => exact ⟨le_refl _, Nat.le_succ _⟩
    | dropLast => exact ⟨le_refl _, le_refl _⟩
    | drop => exact ⟨le_refl _, le_refl _⟩
  refine ⟨hGrows.1.trans_lt hMax, fun h hName k hk => ?_⟩
  refine hWriters h (hName.trans_le hGrows.2) k ?_
  rw [unwinds_append]
  exact hk.trans (Nat.le_add_right ..)

-- ---------------------------------------------------------------------------
-- No data races
-- ---------------------------------------------------------------------------

/-- Handle `h` may be writing slot `i`. -/
def MultiSystem.Writes (R : RingSize) (s : MultiSystem E) (h i : Nat) : Prop :=
  (s.producer.handles h).pc.toPc = .advance ∧
    R.slot (s.producer.handles h).claimedSequence = i

/-- The handler of consumer `c` may be reading slot `i`. -/
def MultiSystem.Reads (R : RingSize) (w : Wiring) (s : MultiSystem E) (c i : Nat) : Prop :=
  c < w.consumers.length ∧
    ∃ sequence available, s.consumers c = .handler sequence available ∧ R.slot sequence = i

/-- `NoDataRaces`, of the code. -/
structure MultiSystem.NoDataRaces (R : RingSize) (w : Wiring) (s : MultiSystem E) : Prop where
  reader : ∀ i h c, s.Writes R h i → ¬ s.Reads R w c i
  writer : ∀ i h h', s.Writes R h i → s.Writes R h' i → h = h'

/-- **Data races of the code** are data races of `MPMC`. -/
theorem MultiSystem.Maps.noDataRaces {K : Constants Writer Nat} {tr : List (Event E)}
    {s : MultiSystem E} {x : MPMC Writer Nat} (hMaps : s.Maps R w tr x) (hSize : K.size = R.size)
    (hInv : MPMC.Inv K x) : s.NoDataRaces R w := by
  have hWrites : ∀ {h i}, s.Writes R h i → (h, unwinds h tr) ∈ x.ringbuffer.writers i := by
    rintro h i ⟨hPc, hSlot⟩
    rw [hInv.writers, hMaps.writerPc, hMaps.claimedSequence h hPc, hSize, ← R.slot_eq]
    exact ⟨hPc, hSlot⟩
  have hReads : ∀ {c i}, s.Reads R w c i → c ∈ x.ringbuffer.readers i := by
    rintro c i ⟨hc, sequence, available, hPc, hSlot⟩
    rw [hInv.readers, hMaps.readerPc c hc, hMaps.read c hc, hPc, hSize]
    refine ⟨rfl, ?_⟩
    rw [ConsumerPc.processed, Int.sub_add_cancel, ← R.slot_eq]
    exact hSlot
  have hIndex : ∀ {h i}, s.Writes R h i → i < K.size := by
    rintro h i ⟨-, hSlot⟩
    rw [hSize, ← hSlot]
    exact R.slot_lt _
  constructor
  · intro i h c hWriting hReading
    obtain ⟨hEmpty | hEmpty, -⟩ := hInv.noDataRaces i (hIndex hWriting)
    · exact Finset.notMem_empty c (hEmpty ▸ hReads hReading)
    · exact Finset.notMem_empty _ (hEmpty ▸ hWrites hWriting)
  · intro i h h' hWriting hWriting'
    obtain ⟨-, hOne⟩ := hInv.noDataRaces i (hIndex hWriting)
    rw [Finset.card_le_one] at hOne
    exact congrArg Prod.fst (hOne _ (hWrites hWriting) _ (hWrites hWriting'))

end Calvera
