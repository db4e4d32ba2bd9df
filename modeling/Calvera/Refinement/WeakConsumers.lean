import Calvera.Refinement.Views

/-!
# Refinement — consumers on release/acquire memory

A consumer that finds old values waits longer, and is granted less, but never
too much: what `get_after` answers has passed the level in the consumer's
picture, so it has passed the level (`ConsumerStep.picture`). The acquire fence
before it reads makes known the accesses that came with the picture.

`WeakInv` is the invariant as far as it does not depend on the kind of producer;
`WeakInv.stepConsumer` and `.accessConsumer` show that consumers keep it.
-/

namespace Calvera

open Calvera.Lib Calvera.Lib.ReleaseAcquire Calvera.Protocol

variable {E P Q : Type} {R : RingSize} {T : Topology Nat} {producerBarrier : Barrier}
  {w : Wiring} {c : Nat}

-- ---------------------------------------------------------------------------
-- Loading
-- ---------------------------------------------------------------------------

/-- What a load does, if there is one: thread `θ` sees a newer write, and is
presented with a memory that shows it. -/
structure Loaded (s : WeakSystem P E) (θ : Party) (loads : Option Loc) (M : AtomicMachine)
    (m : Memory E) : Prop where
  history : M.history = s.machine.history
  log : M.log = s.machine.log
  wellFormed : WellFormed M
  grows : Grows s.machine M
  others : ∀ θ' ≠ θ, M.views θ' = s.machine.views θ'
  current : (M.views θ).current = (s.machine.views θ).current
  released : (M.views θ).released = (s.machine.views θ).released
  seen : ∀ y, loads ≠ some y → (M.views θ).seen y = (s.machine.views θ).seen y
  presented : ∀ x, loads = some x → m.value x = M.value θ x
  slots : m.slots = s.slots
  newest : (∀ x, loads = some x → (M.views θ).seen x = (M.history x).last) → m = s.memory

theorem WeakSystem.load_cases {s : WeakSystem P E} {θ : Party} {k : Nat} {loads : Option Loc}
    {M : AtomicMachine} {m : Memory E} (hWf : WellFormed s.machine)
    (h : s.load θ k loads = some (M, m)) : Loaded s θ loads M m := by
  cases loads with
  | none =>
    cases h
    exact ⟨rfl, rfl, hWf, .refl _, fun _ _ => rfl, rfl, rfl, fun _ _ => rfl,
      fun x hx => (by cases hx), rfl, fun _ => rfl⟩
  | some x =>
    rw [load] at h
    split at h
    · cases h
    · rename_i hLoad
      cases h
      have hWf' := hWf.load hLoad
      have hGrows := Grows.load hLoad
      obtain ⟨message, hm, hle, rfl⟩ := Machine.load_eq_some hLoad
      refine ⟨rfl, rfl, hWf', hGrows, fun θ' hne => Machine.setView_ne _ hne, by simp, by simp,
        fun y hy => ?_, fun y hy => ?_, rfl, fun hLast => ?_⟩
      · have hne : y ≠ x := fun hEq => hy (by rw [hEq])
        simp [hne]
      · obtain rfl := Option.some.inj hy
        simp
      · -- the newest write was found
        have hSeen := hLast x rfl
        simp only [Machine.setView_self, Function.update_self, Machine.setView_history] at hSeen
        rw [hSeen, History.getElem?_last] at hm
        have hValue : Machine.value (s.machine.setView θ { s.machine.views θ with
            seen := Function.update (s.machine.views θ).seen x k
            acquired := (s.machine.views θ).acquired ∪ message.released }) θ x =
            s.machine.newest x := by
          rw [Machine.value]
          simp only [Machine.setView_self, Function.update_self, Machine.setView_history, hSeen,
            History.getElem?_last]
          rfl
        rw [hValue, Function.update_eq_self]
        rfl

/-- A step of one thread is a load, a step on what it presents, and an operation. -/
theorem WeakSystem.run_cases {s s' : WeakSystem P E} {θ : Party} {k : Nat} {loads : Option Loc}
    {step : Memory E → Option (Memory E × Q × List (Event E))}
    {performs : Memory E → Q → Option AtomicOp} {q : Q} {es : List (Event E)}
    (h : s.run θ k loads step performs = some (s', q, es)) :
    ∃ M m m' M', s.load θ k loads = some (M, m) ∧ step m = some (m', q, es) ∧
      M.perform? θ (performs m' q) = some M' ∧
      s' = { s with machine := M', slots := m'.slots } := by
  unfold run at h
  split at h
  · cases h
  · rename_i hLoad
    split at h
    · cases h
    · rename_i hStep
      split at h <;> cases h
      exact ⟨_, _, _, _, hLoad, hStep, ‹_›, rfl⟩

-- ---------------------------------------------------------------------------
-- What consumers know
-- ---------------------------------------------------------------------------

/-- A call of `get_after` in progress is sound in the picture of its consumer. -/
def ConsumerPc.Reads (R : RingSize) (T : Topology Nat) (producerBarrier : Barrier)
    (picture : State Nat) (c : Nat) : ConsumerPc → Prop
  | .waitForEvents q g => g.Sound R T producerBarrier picture (T.stage c) q
  | .getAvailable at_ _ g => g.Sound R T producerBarrier picture (T.stage c) (at_ + 1)
  | _ => True

theorem ConsumerPc.Reads.later {pc : ConsumerPc} {picture picture' : State Nat}
    (h : pc.Reads R T producerBarrier picture c) (hLater : picture.Later T picture') :
    pc.Reads R T producerBarrier picture' c := by
  cases pc with
  | waitForEvents q g => exact GetAfter.Sound.later h hLater
  | getAvailable at_ limit g => exact GetAfter.Sound.later h hLater
  | _ => trivial

/-- What consumer `c` has seen and knows. -/
structure ConsumerKnows (R : RingSize) (T : Topology Nat) (producerBarrier : Barrier)
    (M : AtomicMachine) (a : State Nat) (shown : Loc → Nat → Set Int) (c : Nat)
    (pc : ConsumerPc) : Prop where
  /-- Its own cursor is up to date. -/
  own : (M.views (.consumer c)).seen (.consumerCursor c) = (M.history (.consumerCursor c)).last
  /-- What the producers granted, it has seen published. -/
  visible : T.stage c = 0 →
    ∀ t ≤ a.granted c, t ∈ (seenState R producerBarrier M shown (.consumer c)).published
  knows : Knows T Party.consumer? M.log (M.views (.consumer c)).current (T.stage c) (a.granted c)
  reads : pc.Reads R T producerBarrier (seenState R producerBarrier M shown (.consumer c)) c

/-- Whatever happens, a consumer goes on knowing what it knows. -/
theorem ConsumerKnows.extend {M M' : AtomicMachine} {a a' : State Nat}
    {shown shown' : Loc → Nat → Set Int} {pc : ConsumerPc}
    (h : ConsumerKnows R T producerBarrier M a shown c pc) (hInv : Inv T R.size a)
    (hMem : c ∈ T.members) (hOld : Messages R T producerBarrier M a shown)
    (hNew : Messages R T producerBarrier M' a' shown') (hExt : Extends M M' shown shown')
    {θ : Party} (hLog : LogExtends T Party.consumer? a θ M.log M'.log)
    (hGranted : a'.granted c = a.granted c)
    (hOwn : (M'.views (.consumer c)).seen (.consumerCursor c) =
      (M'.history (.consumerCursor c)).last) :
    ConsumerKnows R T producerBarrier M' a' shown' c pc := by
  have hLater := hOld.seenState_later hNew hExt (.consumer c)
  have hStage := T.stage_le c hMem
  refine ⟨hOwn, fun hFirst t ht => ?_, ?_, h.reads.later hLater⟩
  · rw [hGranted] at ht
    exact hLater.published (h.visible hFirst t ht)
  · rw [hGranted]
    exact (hLog.knows h.knows hInv (hInv.granted_passed c hMem) (by omega)).mono
      (hExt.grows.current _) (le_refl _)

/-- The consumer reads on, or takes a grant after an acquire fence. -/
theorem ConsumerKnows.take {M M' : AtomicMachine} {a a' : State Nat} {shown : Loc → Nat → Set Int}
    {pc pc' : ConsumerPc} (h : ConsumerKnows R T producerBarrier M a shown c pc)
    (hMem : c ∈ T.members) (hMsgs : Messages R T producerBarrier M a shown)
    (hHistory : M'.history = M.history) (hLog : M'.log = M.log)
    (hSeen : (M'.views (.consumer c)).seen = (M.views (.consumer c)).seen)
    (hGrows : Grows M M')
    (hReads : pc'.Reads R T producerBarrier (seenState R producerBarrier M shown (.consumer c)) c)
    (hGranted : a'.granted c = a.granted c ∨
      (seenState R producerBarrier M shown (.consumer c)).Passed T (T.stage c) (a'.granted c) ∧
        (M.views (.consumer c)).acquired ⊆ (M'.views (.consumer c)).current) :
    ConsumerKnows R T producerBarrier M' a' shown c pc' := by
  have hSame : seenState R producerBarrier M' shown (.consumer c) =
      seenState R producerBarrier M shown (.consumer c) := by
    simp only [seenState, Machine.value, Machine.newest, hSeen, hHistory]
  refine ⟨?_, fun hFirst t ht => ?_, ?_, hSame ▸ hReads⟩
  · rw [hSeen, hHistory]
    exact h.own
  · rw [hSame]
    rcases hGranted with hEq | ⟨hPassed, -⟩
    · exact h.visible hFirst t (hEq ▸ ht)
    · rw [hFirst] at hPassed
      exact hPassed t ht
  · rw [hLog]
    rcases hGranted with hEq | ⟨hPassed, hFence⟩
    · rw [hEq]
      exact h.knows.mono (hGrows.current _) (le_refl _)
    · have := T.stage_le c hMem
      exact (hMsgs.knows (by omega) hPassed).mono hFence (le_refl _)

/-- **Reading** an event of the grant races with no access. -/
theorem ConsumerKnows.read {M M' : AtomicMachine} {a : State Nat} {shown : Loc → Nat → Set Int}
    {pc : ConsumerPc} {t : Int} (h : ConsumerKnows R T producerBarrier M a shown c pc)
    (hInv : Inv T R.size a) (hMem : c ∈ T.members)
    (hMessages : Messages R T producerBarrier M a shown) (hlt : a.cursor c < t)
    (hle : t ≤ a.granted c) (hPerform : M.perform (.consumer c) (.access t false) = some M') :
    Messages R T producerBarrier M' a shown ∧ ConsumerKnows R T producerBarrier M' a shown c pc ∧
      M'.history = M.history ∧ LogExtends T Party.consumer? a (.consumer c) M.log M'.log ∧
      seenState R producerBarrier M' shown (.consumer c) =
        seenState R producerBarrier M shown (.consumer c) := by
  have hAllowed : Allowed T Party.consumer? a (.consumer c) t := ⟨hMem, hlt, hle⟩
  have hAccess := hMessages.access hInv hPerform hAllowed (by simp [Party.consumer?])
    ((hMessages.logged.read R.pos hAllowed rfl h.knows).mono (Finset.Subset.refl _)
      fun b hb => ⟨by rw [← R.slot_eq, ← R.slot_eq]; exact hb.1, by simpa using hb.2⟩)
  have hGrows := Grows.perform hMessages.wellFormed hPerform
  obtain rfl := Option.some.inj hPerform
  have hLog : LogExtends T Party.consumer? a (.consumer c) M.log (M.log ++ [⟨.consumer c, t, false,
      (M.views (.consumer c)).current⟩]) := .inr ⟨_, rfl, hAllowed, rfl⟩
  refine ⟨hAccess, h.extend hInv hMem hMessages hAccess ⟨hGrows, fun _ _ _ => rfl⟩ hLog rfl ?_,
    rfl, hLog, ?_⟩
  · simpa using h.own
  · simp [seenState, Machine.value, Machine.newest]

-- ---------------------------------------------------------------------------
-- With the newest values
-- ---------------------------------------------------------------------------

/-- Consumer `c` may go to `pc'` on account of what it has read. -/
structure Observes (R : RingSize) (T : Topology Nat) (producerBarrier : Barrier) (s : System P E)
    (a : State Nat) (c : Nat) (pc' : ConsumerPc) : Prop where
  ok : pc'.Ok R T producerBarrier a c
  granted : pc'.granted (s.memory.consumerCursors c) = a.granted c ∨
    s.memory.consumerCursors c ≤ pc'.granted (s.memory.consumerCursors c) ∧
      a.Passed T (T.stage c) (pc'.granted (s.memory.consumerCursors c))

/-- **What has passed may be observed.** -/
theorem System.Consistent.observe {s : System P E} {claimed : Int} {published : Set Int}
    {pc' : ConsumerPc} (h : s.Consistent R T producerBarrier claimed published)
    (hMem : c ∈ T.members)
    (hObs : Observes R T producerBarrier s (s.pipeline claimed published) c pc') :
    System.Consistent R T producerBarrier
        { s with consumers := Function.update s.consumers c pc' } claimed published ∧
      (s.pipeline claimed published).Later T
        (System.pipeline { s with consumers := Function.update s.consumers c pc' }
          claimed published) := by
  have hSteps : Steps T R.size (s.pipeline claimed published)
      (System.pipeline { s with consumers := Function.update s.consumers c pc' }
        claimed published) := by
    rcases hObs.granted with hSame | ⟨hle, hPassed⟩
    · rw [System.Consistent.pipeline_stay hSame]
      exact .refl
    · rw [System.Consistent.pipeline_grant _ rfl]
      exact .single (.grant c _ hMem hle hPassed)
  refine ⟨⟨h.reachable.trans hSteps, ⟨fun _ => rfl, h.represents.published⟩, fun c' hMem' => ?_,
    h.claimed_le⟩, hSteps.later⟩
  rcases eq_or_ne c' c with rfl | hne
  · simpa using hObs.ok.later hSteps.later rfl
  · simpa [hne] using (h.consumers c' hMem').later hSteps.later rfl

-- ---------------------------------------------------------------------------
-- Steps in the picture
-- ---------------------------------------------------------------------------

/-- What a step of consumer `c` to `pc'` comes to; `a` is the state of the
pipeline, `picture` what the consumer has seen of it. -/
inductive ConsumerDoes (R : RingSize) (T : Topology Nat) (producerBarrier : Barrier)
    (o : Orderings) (picture a : State Nat) (c : Nat) (m : Memory E) (pc pc' : ConsumerPc) :
    Option AtomicOp → Memory E → Prop
  /-- It reads on. -/
  | wait : pc'.Ok R T producerBarrier a c → pc'.Reads R T producerBarrier picture c →
      pc'.granted (a.cursor c) = pc.granted (a.cursor c) →
      ConsumerDoes R T producerBarrier o picture a c m pc pc' none m
  /-- It takes a grant. -/
  | grant : pc'.Ok R T producerBarrier a c → pc'.Reads R T producerBarrier picture c →
      a.cursor c ≤ pc'.granted (a.cursor c) →
      picture.Passed T (T.stage c) (pc'.granted (a.cursor c)) →
      ConsumerDoes R T producerBarrier o picture a c m pc pc' (some .acquireFence) m
  /-- It reads an event. -/
  | read (t : Int) : pc'.Ok R T producerBarrier a c → pc'.Reads R T producerBarrier picture c →
      pc'.granted (a.cursor c) = pc.granted (a.cursor c) → a.cursor c < t →
      t ≤ pc.granted (a.cursor c) →
      ConsumerDoes R T producerBarrier o picture a c m pc pc' (some (.access t false)) m
  /-- It is done with its grant. -/
  | store : pc'.Reads R T producerBarrier picture c → pc.loads R c = none →
      (∀ cursor, pc'.granted cursor = cursor) → a.cursor c ≤ pc.granted (a.cursor c) →
      ConsumerDoes R T producerBarrier o picture a c m pc pc'
        (some (.store (.consumerCursor c) (pc.granted (a.cursor c)) o.cursorStore))
        (m.storeCursor c (pc.granted (a.cursor c)))

/-- **What `get_after` answers has passed the level in the picture.** -/
theorem ConsumerStep.picture {o : Orderings} {b : Barrier} {picture a : State Nat}
    {m m' mv : Memory E} {pc pc' : ConsumerPc} {es : List (Event E)}
    (hStep : ConsumerStep R b c m pc m' pc' es) (hWait : o.waitFence = true)
    (hPoll : o.pollFence = true) (hCovers : Covers T producerBarrier (T.stage c) b)
    (hRep : Represents R producerBarrier mv picture) (hOwn : mv.consumerCursors c = a.cursor c)
    (hPresented : ∀ x, pc.loads R c = some x → m.value x = mv.value x)
    (hLap : T.stage c = 0 → Lap R.size picture.published (a.cursor c))
    (hLater : picture.Later T a) (hMax : a.cursor c ≤ i64Max) (hOk : pc.Ok R T producerBarrier a c)
    (hReads : pc.Reads R T producerBarrier picture c) :
    ConsumerDoes R T producerBarrier o picture a c m pc pc' (pc.performs o c m' pc') m' := by
  have hStart := fun q => hCovers.sound hRep q
  have hLap' : T.stage c = 0 → Lap R.size picture.published (a.cursor c + 1 - 1) := by
    rwa [Int.add_sub_cancel]
  have hSame : ∀ g : GetAfter, pc.loads R c = g.loads R → g.step R m = g.step R mv :=
    fun g hg => GetAfter.step_congr fun x hx => hPresented x (hg.trans hx)
  cases hStep with
  | waitRead hg =>
    obtain ⟨rfl, -⟩ := hOk
    rw [hSame _ rfl] at hg
    have hSound := (GetAfter.Sound.step hReads hRep hLap').1 _ hg
    exact .wait ⟨rfl, hSound.later hLater⟩ hSound rfl
  | waitMiss hg hlt => exact .wait hOk.1 trivial rfl
  | @waitHit q g v hg hle =>
    obtain ⟨rfl, -⟩ := hOk
    rw [hSame _ rfl] at hg
    have hPassed := (GetAfter.Sound.step hReads hRep hLap').2 _ hg
    rw [show ConsumerPc.performs o c m (.waitForEvents (a.cursor c + 1) g)
      (.batch (a.cursor c + 1) v) = some .acquireFence by simp [ConsumerPc.performs, fence, hWait]]
    refine .grant ⟨by omega, by omega, by omega⟩ trivial ?_ hPassed
    show a.cursor c ≤ v
    omega
  | exit _ => exact .wait trivial trivial rfl
  | retry _ => exact .wait ⟨hOk, (hStart _).later hLater⟩ (hStart _) rfl
  | handle hle =>
    obtain ⟨hlo, -, -⟩ := hOk
    exact .read _ ⟨hlo, hle⟩ trivial rfl hlo hle
  | handled =>
    obtain ⟨hlo, hhi⟩ := hOk
    exact .wait ⟨by omega, by omega, by omega⟩ trivial rfl
  | @store q v hlt =>
    obtain ⟨hlo, hhi, -⟩ := hOk
    obtain rfl : v = q - 1 := by omega
    rw [show ConsumerPc.performs o c (m.storeCursor c (q - 1)) (.batch q (q - 1))
      (.waitForEvents q (b.getAfter q)) =
        some (.store (.consumerCursor c) (q - 1) o.cursorStore) by
          simp [ConsumerPc.performs, Memory.storeCursor]]
    refine .store (hStart _) rfl (fun _ => rfl) ?_
    show a.cursor c ≤ q - 1
    omega
  | pollTake =>
    have hCursor : m.consumerCursors c = mv.consumerCursors c := hPresented (.consumerCursor c) rfl
    exact .wait (hCursor.trans hOwn) trivial rfl
  | pollShutdown _ => exact .wait trivial trivial rfl
  | pollOpen _ => exact .wait ⟨hOk, (hStart _).later hLater⟩ (hStart _) rfl
  | pollRead hg =>
    obtain ⟨rfl, -⟩ := hOk
    rw [hSame _ rfl] at hg
    have hSound := (GetAfter.Sound.step hReads hRep hLap').1 _ hg
    exact .wait ⟨rfl, hSound.later hLater⟩ hSound rfl
  | pollMiss hg hlt => exact .wait trivial trivial rfl
  | @pollHit at_ limit g v hg hle =>
    obtain ⟨rfl, -⟩ := hOk
    rw [hSame _ rfl] at hg
    have hPassed := (GetAfter.Sound.step hReads hRep hLap').2 _ hg
    have hLimit : a.cursor c ≤ saturatingAddUnsigned (a.cursor c) limit :=
      Int.le_min.mpr ⟨by omega, hMax⟩
    have hGranted : a.cursor c ≤ min v (saturatingAddUnsigned (a.cursor c) limit) :=
      Int.le_min.mpr ⟨by omega, hLimit⟩
    rw [show ConsumerPc.performs o c m (.getAvailable (a.cursor c) limit g)
      (.guard (a.cursor c + 1) (min v (saturatingAddUnsigned (a.cursor c) limit))) =
        some .acquireFence by simp [ConsumerPc.performs, fence, hPoll]]
    refine .grant ⟨by omega, by omega⟩ trivial hGranted (hPassed.mono (Int.min_le_left _ _))
  | nextNone hlt =>
    rw [show ConsumerPc.performs o c m (.guard _ _) (.guard _ _) = none by
      simp [ConsumerPc.performs]]
    exact .wait hOk trivial rfl
  | @nextSome q v hle =>
    obtain ⟨hlo, hhi⟩ := hOk
    rw [show ConsumerPc.performs o c m (.guard q v) (.guard (q + 1) v) =
      some (.access q false) by simp [ConsumerPc.performs]]
    exact .read q ⟨by omega, by omega⟩ trivial rfl hlo hle
  | @dropGuard q v =>
    obtain ⟨hlo, hhi⟩ := hOk
    rw [show ConsumerPc.performs o c (m.storeCursor c v) (.guard q v) (.idle none) =
        some (.store (.consumerCursor c) v o.cursorStore) by
          simp [ConsumerPc.performs, Memory.storeCursor]]
    refine .store trivial rfl (fun _ => rfl) ?_
    show a.cursor c ≤ v
    omega

/-- What a consumer step needs of an invariant of the system with the newest values. -/
structure Keeps (R : RingSize) (T : Topology Nat) (producerBarrier : Barrier) (w : Wiring)
    (I : List (Event E) → System P E → Prop) (claimed : System P E → Int) : Prop where
  claimed_congr : ∀ {s s' : System P E}, s'.producer = s.producer →
    s'.memory.cursor = s.memory.cursor → claimed s' = claimed s
  consistent : ∀ {tr s}, I tr s → s.Consistent R T producerBarrier (claimed s) (publishedBy tr)
  consumer : ∀ {tr s c spec m' pc' es}, I tr s → w.consumers[c]? = some spec →
    ConsumerStep R spec.dependentBarrier c s.memory (s.consumers c) m' pc' es →
      I (tr ++ es) { s with memory := m', consumers := Function.update s.consumers c pc' }
  observe : ∀ {tr s c pc' es}, I tr s → c ∈ T.members → (∀ e ∈ es, e.OfConsumer) →
    Observes R T producerBarrier s (s.pipeline (claimed s) (publishedBy tr)) c pc' →
      I (tr ++ es) { s with consumers := Function.update s.consumers c pc' }

/-- The state of the pipeline with the newest values. -/
def WeakSystem.state (claimed : System P E → Int) (tr : List (Event E)) (s : WeakSystem P E) :
    State Nat :=
  s.latest.pipeline (claimed s.latest) (publishedBy tr)

/-- The invariant on release/acquire memory, as far as it concerns consumers. -/
structure WeakInv (R : RingSize) (T : Topology Nat) (producerBarrier : Barrier)
    (I : List (Event E) → System P E → Prop) (claimed : System P E → Int) (tr : List (Event E))
    (s : WeakSystem P E) (shown : Loc → Nat → Set Int) : Prop where
  latest : I tr s.latest
  messages : Messages R T producerBarrier s.machine (s.state claimed tr) shown
  consumers : ∀ c ∈ T.members,
    ConsumerKnows R T producerBarrier s.machine (s.state claimed tr) shown c (s.consumers c)

/-- What a step of consumer `c` leaves to the producers. -/
structure Undisturbed (T : Topology Nat) (claimed : System P E → Int) (c : Nat)
    (tr tr' : List (Event E)) (s s' : WeakSystem P E) (shown shown' : Loc → Nat → Set Int) : Prop where
  producer : s'.producer = s.producer
  handles : ∀ h, s'.machine.views (.handle h) = s.machine.views (.handle h)
  cursor : s'.machine.history .cursor = s.machine.history .cursor
  extend : Extends s.machine s'.machine shown shown'
  log : LogExtends T Party.consumer? (s.state claimed tr) (.consumer c) s.machine.log
    s'.machine.log
  later : (s.state claimed tr).Later T (s'.state claimed tr')

section Steps

variable {I : List (Event E) → System P E → Prop} {claimed : System P E → Int}
  {tr es : List (Event E)} {s s' : WeakSystem P E} {shown shown' : Loc → Nat → Set Int}
  {M M' : AtomicMachine} {pc' : ConsumerPc}

/-- What `build` returns. -/
theorem WeakInv.init (hKeeps : Keeps R T producerBarrier w I claimed)
    (hBarrier : producerBarrier = .uniProducer ∨ producerBarrier = .multiProducer ∧ 64 ∣ R.size)
    (hWired : Wired T producerBarrier w) (factory : Nat → E) (producer : P)
    (h : I [] (System.init w factory producer)) :
    WeakInv R T producerBarrier I claimed [] (.init w factory producer) fun _ _ => {t | t < 0} := by
  have hPublished : publishedBy ([] : List (Event E)) = {s | s < 0} := by
    ext s
    simp
  have hMessages : Messages R T producerBarrier (.init Loc.initial)
      (WeakSystem.state claimed [] (.init w factory producer)) fun _ _ => {t | t < 0} :=
    .init hPublished rfl
  refine ⟨h, hMessages, fun c hMem => ⟨rfl, fun _ t ht => ?_, fun i b hi => ?_, ?_⟩⟩
  · have hPassed := (hKeeps.consistent h).inv.granted_published hMem ht
    have : t ∈ publishedBy ([] : List (Event E)) := hPassed
    rw [hPublished] at this
    exact this
  · simp [WeakSystem.init, Machine.init] at hi
  · obtain ⟨spec, hSpec⟩ : ∃ spec, w.consumers[c]? = some spec :=
      ⟨_, List.getElem?_eq_getElem ((hWired.mem_iff c).mp hMem)⟩
    have hRep := hMessages.represents hBarrier factory (.consumer c)
    have hSound := (hWired.dependentBarrier hSpec).sound hRep 0
    simp only [WeakSystem.init, System.init, hSpec, ConsumerSpec.start]
    cases spec.kind with
    | poller => trivial
    | _ => exact hSound

theorem WeakInv.inv (hKeeps : Keeps R T producerBarrier w I claimed)
    (h : WeakInv R T producerBarrier I claimed tr s shown) :
    Inv T R.size (s.state claimed tr) := (hKeeps.consistent h.latest).inv

/-- Writing nothing leaves the newest values. -/
theorem WeakSystem.latest_of_history (c : Nat) (pc' : ConsumerPc)
    (hHistory : M'.history = s.machine.history) :
    WeakSystem.latest { s with machine := M', consumers := Function.update s.consumers c pc' } =
      { s.latest with consumers := Function.update s.latest.consumers c pc' } := by
  simp only [WeakSystem.latest, WeakSystem.memory]
  congr 2
  funext x
  rw [Machine.newest, Machine.newest, hHistory]

/-- A step of a consumer that writes no atomic. -/
theorem WeakInv.observed (hKeeps : Keeps R T producerBarrier w I claimed)
    (h : WeakInv R T producerBarrier I claimed tr s shown) (hMem : c ∈ T.members)
    (hEs : ∀ e ∈ es, e.OfConsumer)
    (hObs : Observes R T producerBarrier s.latest (s.state claimed tr) c pc')
    (hHistory : M'.history = s.machine.history) (hGrows : Grows s.machine M')
    (hOthers : ∀ θ ≠ .consumer c, M'.views θ = s.machine.views θ)
    (hMessages : Messages R T producerBarrier M' (s.state claimed tr) shown)
    (hLog : LogExtends T Party.consumer? (s.state claimed tr) (.consumer c) s.machine.log M'.log)
    (hMine : ∀ a' : State Nat, a'.granted c = pc'.granted ((s.state claimed tr).cursor c) →
      ConsumerKnows R T producerBarrier M' a' shown c pc') :
    WeakInv R T producerBarrier I claimed (tr ++ es)
        { s with machine := M', consumers := Function.update s.consumers c pc' } shown ∧
      Undisturbed T claimed c tr (tr ++ es) s
        { s with machine := M', consumers := Function.update s.consumers c pc' } shown shown := by
  have hLatest := WeakSystem.latest_of_history c pc' hHistory
  obtain ⟨-, hFlips, -⟩ := history_ofConsumer hEs
  have hPublished : publishedBy (tr ++ es) = publishedBy tr := by
    ext t
    simp [hFlips]
  have hClaimed : claimed { s.latest with
      consumers := Function.update s.latest.consumers c pc' } = claimed s.latest :=
    hKeeps.claimed_congr rfl rfl
  have hState : WeakSystem.state claimed (tr ++ es)
      { s with machine := M', consumers := Function.update s.consumers c pc' } =
      System.pipeline { s.latest with consumers := Function.update s.latest.consumers c pc' }
        (claimed s.latest) (publishedBy tr) := by
    rw [WeakSystem.state, hLatest, hPublished, hClaimed]
  obtain ⟨-, hLater⟩ := (hKeeps.consistent h.latest).observe hMem hObs
  have hMessages' : Messages R T producerBarrier M' (WeakSystem.state claimed (tr ++ es)
      { s with machine := M', consumers := Function.update s.consumers c pc' }) shown := by
    rw [hState]
    exact hMessages.congr rfl rfl
  have hExt : Extends s.machine M' shown shown := ⟨hGrows, fun _ _ _ => rfl⟩
  refine ⟨⟨?_, hMessages', fun c' hMem' => ?_⟩, rfl, fun h => hOthers _ (by simp),
    by rw [hHistory], hExt, hLog, ?_⟩
  · rw [hLatest]
    exact hKeeps.observe h.latest hMem hEs hObs
  · rw [hState]
    rcases eq_or_ne c' c with rfl | hne
    · simp only [Function.update_self]
      refine hMine _ ?_
      simp [System.pipeline]
      rfl
    · simp only [Function.update_of_ne hne]
      refine (h.consumers c' hMem').extend (h.inv hKeeps) hMem' h.messages
        (hState ▸ hMessages') hExt hLog ?_ ?_
      · simp [System.pipeline, hne, WeakSystem.state, WeakSystem.latest]
      · rw [hOthers _ (by simpa using hne), hHistory]
        exact (h.consumers c' hMem').own
  · rw [hState]
    exact hLater

/-- **A consumer that stores its cursor** passes on what it knows. -/
theorem WeakInv.stored (hKeeps : Keeps R T producerBarrier w I claimed)
    (h : WeakInv R T producerBarrier I claimed tr s shown) {spec : ConsumerSpec}
    (hWired : Wired T producerBarrier w) (hSpec : w.consumers[c]? = some spec) {v : Int}
    (hStep : ConsumerStep R spec.dependentBarrier c s.memory (s.consumers c)
      (s.memory.storeCursor c v) pc' es)
    (hGranted : (s.state claimed tr).granted c = v) (hle : (s.state claimed tr).cursor c ≤ v)
    (hPc : ∀ cursor, pc'.granted cursor = cursor)
    (hReads : pc'.Reads R T producerBarrier
      (seenState R producerBarrier s.machine shown (.consumer c)) c)
    (hPerform : s.machine.perform (.consumer c) (.store (.consumerCursor c) v true) = some M') :
    ∃ shown', WeakInv R T producerBarrier I claimed (tr ++ es)
        { s with machine := M', consumers := Function.update s.consumers c pc' } shown' ∧
      Undisturbed T claimed c tr (tr ++ es) s
        { s with machine := M', consumers := Function.update s.consumers c pc' } shown shown' := by
  have hMem := hWired.mem hSpec
  have hWf := h.messages.wellFormed
  have hInv := h.inv hKeeps
  have hKnows := h.consumers c hMem
  obtain ⟨hHistory, hLogSame, hSeen⟩ := Machine.perform_store hPerform
  have hGrows := Grows.perform hWf hPerform
  have hOthers : ∀ θ ≠ .consumer c, M'.views θ = s.machine.views θ :=
    fun θ hne => Machine.perform_others hPerform hne
  have hLog : LogExtends T Party.consumer? (s.state claimed tr) (.consumer c) s.machine.log M'.log :=
    .inl hLogSame
  have hLatest : WeakSystem.latest
      { s with machine := M', consumers := Function.update s.consumers c pc' } =
      { s.latest with
        memory := s.memory.storeCursor c v
        consumers := Function.update s.consumers c pc' } := by
    simp only [WeakSystem.latest, WeakSystem.memory, Machine.newest_of_history hHistory,
      Memory.ofValues_storeCursor]
  obtain ⟨-, hFlips, -⟩ := history_ofConsumer hStep.ofConsumer
  have hPublished : publishedBy (tr ++ es) = publishedBy tr := by
    ext t
    simp [hFlips]
  have hClaimed : claimed { s.latest with
      memory := s.memory.storeCursor c v
      consumers := Function.update s.consumers c pc' } = claimed s.latest :=
    hKeeps.claimed_congr rfl rfl
  have hState : WeakSystem.state claimed (tr ++ es)
      { s with machine := M', consumers := Function.update s.consumers c pc' } =
      { s.state claimed tr with
        cursor := Function.update (s.state claimed tr).cursor c v
        granted := (s.state claimed tr).granted } := by
    rw [WeakSystem.state, hLatest, hPublished]
    simp only [System.pipeline, hClaimed, WeakSystem.state]
    congr 1
    funext c'
    rcases eq_or_ne c' c with rfl | hne
    · simp only [Function.update_self, hPc, Memory.storeCursor]
      exact hGranted.symm
    · simp [Memory.storeCursor, hne, WeakSystem.latest]
  have hLater : (s.state claimed tr).Later T (WeakSystem.state claimed (tr ++ es)
      { s with machine := M', consumers := Function.update s.consumers c pc' }) := by
    rw [hState]
    refine ⟨subset_rfl, fun c' _ => ?_⟩
    rcases eq_or_ne c' c with rfl | hne
    · simpa using hle
    · simp [hne]
  have hDone : Done T Party.consumer? s.machine.log (s.machine.views (.consumer c)).current c v := by
    refine Knows.done (hGranted ▸ hKnows.knows) ?_
    refine (hWf.own (.consumer c)).mono (Finset.Subset.refl _) fun b hb => ?_
    cases hThread : b.thread with
    | consumer c' =>
      rw [hThread] at hb
      exact congrArg Party.consumer (Option.some.inj hb)
    | handle h =>
      rw [hThread] at hb
      cases hb
  obtain ⟨shown', hMessages, hExt⟩ := h.messages.store
    (WeakSystem.state claimed (tr ++ es)
      { s with machine := M', consumers := Function.update s.consumers c pc' })
    hHistory hLogSame (hWf.perform hPerform) hGrows (by rw [hState]) (by rw [hState]) hle hDone
  refine ⟨shown', ⟨?_, hMessages, fun c' hMem' => ?_⟩, rfl, fun h => hOthers _ (by simp),
    by rw [hHistory, Function.update_of_ne (by simp)], hExt, hLog, hLater⟩
  · rw [hLatest]
    exact hKeeps.consumer h.latest hSpec hStep
  · rcases eq_or_ne c' c with rfl | hne
    · simp only [Function.update_self]
      have hKnows' : ConsumerKnows R T producerBarrier s.machine (s.state claimed tr) shown c' pc' :=
        { hKnows with reads := hReads }
      exact hKnows'.extend hInv hMem h.messages hMessages hExt hLog (by rw [hState]) hSeen
    · simp only [Function.update_of_ne hne]
      refine (h.consumers c' hMem').extend hInv hMem' h.messages hMessages hExt hLog
        (by rw [hState]) ?_
      rw [hOthers _ (by simpa using hne), hHistory, Function.update_of_ne (by simpa using hne)]
      exact (h.consumers c' hMem').own

/-- **Consumers keep the invariant**, with a release store and acquire fences. -/
theorem WeakInv.stepConsumer {o : Orderings} (hKeeps : Keeps R T producerBarrier w I claimed)
    (hBarrier : producerBarrier = .uniProducer ∨ producerBarrier = .multiProducer ∧ 64 ∣ R.size)
    (hWired : Wired T producerBarrier w) (hStore : o.cursorStore = true)
    (hWait : o.waitFence = true) (hPoll : o.pollFence = true)
    (h : WeakInv R T producerBarrier I claimed tr s shown) {k : Nat} {act : ConsumerAct}
    (hs : s.stepConsumer o R w c k act = some (s', es)) :
    ∃ shown', WeakInv R T producerBarrier I claimed (tr ++ es) s' shown' ∧
      Undisturbed T claimed c tr (tr ++ es) s s' shown shown' := by
  unfold WeakSystem.stepConsumer at hs
  split at hs
  · cases hs
  rename_i spec hSpec
  dsimp only at hs
  split at hs
  · cases hs
  rename_i hRun
  cases hs
  obtain ⟨M, m, m', M', hLoad, hStep, hPerform, rfl⟩ := WeakSystem.run_cases hRun
  have hMem := hWired.mem hSpec
  have hInv := h.inv hKeeps
  have hConsistent := hKeeps.consistent h.latest
  have hLoaded := WeakSystem.load_cases h.messages.wellFormed hLoad
  have hStep := consumerStep_cases hStep
  -- after the load
  have hMessages : Messages R T producerBarrier M (s.state claimed tr) shown :=
    h.messages.views hLoaded.history hLoaded.log hLoaded.wellFormed
  have hOwn : (M.views (.consumer c)).seen (.consumerCursor c) =
      (M.history (.consumerCursor c)).last := by
    refine le_antisymm (hLoaded.wellFormed.seen_le _ _) ?_
    rw [hLoaded.history, ← (h.consumers c hMem).own]
    exact hLoaded.grows.seen _ _
  have hLog : LogExtends T Party.consumer? (s.state claimed tr) (.consumer c) s.machine.log M.log :=
    .inl hLoaded.log
  have hKnows : ConsumerKnows R T producerBarrier M (s.state claimed tr) shown c (s.consumers c) :=
    (h.consumers c hMem).extend hInv hMem h.messages hMessages ⟨hLoaded.grows, fun _ _ _ => rfl⟩
      hLog rfl hOwn
  have hLater := hMessages.seenState_le (.consumer c)
  have hLap : T.stage c = 0 →
      Lap R.size (seenState R producerBarrier M shown (.consumer c)).published
        ((s.state claimed tr).cursor c) := fun hFirst =>
    { filled := fun t ht =>
        hKnows.visible hFirst t (ht.trans (hInv.cursor_le_granted c hMem))
      bounded := fun t ht => (hInv.lap hMem).bounded t (hLater.published ht) }
  have hMax : (s.state claimed tr).cursor c ≤ i64Max :=
    (hInv.cursor_le_claimed hMem).trans hConsistent.claimed_le
  have hPicture := hStep.picture (o := o) hWait hPoll (hWired.dependentBarrier hSpec)
    (hMessages.represents hBarrier s.slots (.consumer c))
    ((Machine.value_eq_newest hOwn).trans (hMessages.cursor c))
    (fun x hx => by rw [hLoaded.presented x hx, seenMemory, Memory.value_ofValues]) hLap hLater hMax
    (hConsistent.consumers c hMem) hKnows.reads
  generalize ConsumerPc.performs o c m' (s.consumers c) _ = op at hPicture hPerform
  cases hPicture with
  | wait hOk hReads hGranted =>
    obtain rfl := Option.some.inj hPerform
    rw [hLoaded.slots]
    refine ⟨shown, h.observed hKeeps hMem hStep.ofConsumer ⟨hOk, .inl hGranted⟩ hLoaded.history
      hLoaded.grows hLoaded.others hMessages hLog fun a' ha' => ?_⟩
    exact hKnows.take hMem hMessages rfl rfl rfl (.refl M) hReads (.inl (ha'.trans hGranted))
  | grant hOk hReads hle hPassed =>
    rw [Machine.perform?] at hPerform
    have hGrows := Grows.perform hLoaded.wellFormed hPerform
    have hWf := hLoaded.wellFormed.perform hPerform
    have hOthers := fun θ (hne : θ ≠ Party.consumer c) =>
      (Machine.perform_others hPerform hne).trans (hLoaded.others θ hne)
    obtain rfl := Option.some.inj hPerform
    rw [hLoaded.slots]
    refine ⟨shown, h.observed hKeeps hMem hStep.ofConsumer ⟨hOk, .inr ⟨hle, hPassed.later hLater⟩⟩
      hLoaded.history (hLoaded.grows.trans hGrows) hOthers (hMessages.views rfl rfl hWf)
      hLog fun a' ha' => ?_⟩
    refine hKnows.take hMem hMessages rfl rfl (by simp) hGrows hReads (.inr ⟨?_, by simp⟩)
    rw [ha']
    exact hPassed
  | read t hOk hReads hGranted hlt hle =>
    rw [Machine.perform?] at hPerform
    have hGrows := Grows.perform hLoaded.wellFormed hPerform
    have hOthers := fun θ (hne : θ ≠ Party.consumer c) =>
      (Machine.perform_others hPerform hne).trans (hLoaded.others θ hne)
    obtain ⟨hAccess, hKnows', hHistory, hLog, hSame⟩ :=
      hKnows.read hInv hMem hMessages hlt hle hPerform
    rw [hLoaded.slots]
    refine ⟨shown, h.observed hKeeps hMem hStep.ofConsumer ⟨hOk, .inl hGranted⟩
      (hHistory.trans hLoaded.history) (hLoaded.grows.trans hGrows) hOthers hAccess
      (by rw [← hLoaded.log]; exact hLog) fun a' ha' => ?_⟩
    exact hKnows'.take hMem hAccess rfl rfl rfl (.refl M') (hSame ▸ hReads)
      (.inl (ha'.trans hGranted))
  | store hReads hLoads hPc hle =>
    rw [hStore] at hPerform
    have hNone : M = s.machine ∧ m = s.memory := by
      rw [hLoads] at hLoad
      cases hLoad
      exact ⟨rfl, rfl⟩
    obtain ⟨rfl, rfl⟩ := hNone
    exact h.stored hKeeps hWired hSpec hStep rfl hle hPc hReads hPerform

/-- **Another look at an event** that is lent to a consumer. -/
theorem WeakInv.accessConsumer (hKeeps : Keeps R T producerBarrier w I claimed)
    (hWired : Wired T producerBarrier w) (h : WeakInv R T producerBarrier I claimed tr s shown)
    {t : Int} (hs : s.accessConsumer w c t = some (s', es)) :
    WeakInv R T producerBarrier I claimed (tr ++ es) s' shown ∧
      Undisturbed T claimed c tr (tr ++ es) s s' shown shown := by
  unfold WeakSystem.accessConsumer WeakSystem.access at hs
  dsimp only at hs
  split at hs
  · rename_i hRead
    split at hs
    · cases hs
    rename_i M' hPerform
    cases hs
    have hMem := (hWired.mem_iff c).mpr hRead.1
    have hInv := h.inv hKeeps
    have hKnows := h.consumers c hMem
    have hOk := (hKeeps.consistent h.latest).consumers c hMem
    have hOwn : s.machine.value (.consumer c) (.consumerCursor c) = (s.state claimed tr).cursor c :=
      (Machine.value_eq_newest hKnows.own).trans (h.messages.cursor c)
    have hRange : (s.state claimed tr).cursor c < t ∧ t ≤ (s.state claimed tr).granted c := by
      obtain ⟨-, hRead⟩ := hRead
      rw [hOwn] at hRead
      show _ ∧ t ≤ (s.consumers c).granted _
      have hOk : (s.consumers c).Ok R T producerBarrier (s.state claimed tr) c := hOk
      generalize s.consumers c = pc at hRead hOk
      cases pc with
      | handler q v =>
        obtain rfl : t = q := hRead
        exact hOk
      | guard q v =>
        obtain ⟨hlo, hhi⟩ : (s.state claimed tr).cursor c < t ∧ t < q := hRead
        have hLast := hOk.2
        exact ⟨hlo, by simp only [ConsumerPc.granted]; omega⟩
      | _ => exact hRead.elim
    obtain ⟨hAccess, hKnows', hHistory, hLog, -⟩ :=
      hKnows.read hInv hMem h.messages hRange.1 hRange.2 hPerform
    have hEs : ∀ e ∈ ([] : List (Event E)), e.OfConsumer := by simp
    have hObs : Observes R T producerBarrier s.latest (s.state claimed tr) c (s.consumers c) :=
      ⟨hOk, .inl rfl⟩
    have hMoved := h.observed hKeeps hMem hEs hObs hHistory
      (Grows.perform h.messages.wellFormed hPerform)
      (fun θ hne => Machine.perform_others hPerform hne) hAccess hLog fun a' ha' => hKnows'.take hMem hAccess rfl rfl rfl (.refl M') hKnows'.reads (.inl ha')
    rwa [Function.update_eq_self] at hMoved
  · cases hs

/-- **A step of a producer** is nothing to the consumers, when it is allowed. -/
theorem WeakInv.produced (hKeeps : Keeps R T producerBarrier w I claimed)
    (h : WeakInv R T producerBarrier I claimed tr s shown) {slots : Nat → E} {producer : P}
    (hLatest : I (tr ++ es) (WeakSystem.latest
      { s with machine := M', slots := slots, producer := producer }))
    (hMessages : Messages R T producerBarrier M' (WeakSystem.state claimed (tr ++ es)
      { s with machine := M', slots := slots, producer := producer }) shown')
    (hExt : Extends s.machine M' shown shown')
    {θ : Party} (hLog : LogExtends T Party.consumer? (s.state claimed tr) θ s.machine.log M'.log)
    (hViews : ∀ c, M'.views (.consumer c) = s.machine.views (.consumer c))
    (hCursors : ∀ c, M'.history (.consumerCursor c) = s.machine.history (.consumerCursor c)) :
    WeakInv R T producerBarrier I claimed (tr ++ es)
      { s with machine := M', slots := slots, producer := producer } shown' := by
  refine ⟨hLatest, hMessages, fun c hMem => ?_⟩
  refine (h.consumers c hMem).extend (h.inv hKeeps) hMem h.messages hMessages hExt hLog ?_ ?_
  · have hNewest : M'.newest (.consumerCursor c) = s.machine.newest (.consumerCursor c) := by
      rw [Machine.newest, Machine.newest, hCursors]
    exact congrArg (s.consumers c).granted hNewest
  · rw [hViews, hCursors]
    exact (h.consumers c hMem).own

end Steps

end Calvera
