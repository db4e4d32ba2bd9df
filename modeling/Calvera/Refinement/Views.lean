import Calvera.Code.Orderings
import Calvera.Protocol.Accesses
import Calvera.Refinement.Consumers

/-!
# Refinement — what a thread has seen

On release/acquire memory every thread has its own picture of the atomics: the
newest writes it has seen. `seenMemory` is the memory in this picture and
`seenState` the state of the pipeline it shows. The picture may be old, but it
is a true one (`Messages.represents`), it only becomes newer
(`Messages.seenState_later`), and what has passed a level in it comes with the
knowledge of the accesses up to that level (`Messages.knows`).

`Messages` says what the atomics carry: the values, and the accesses taken
along. It is kept by everything a thread does: `Messages.views` for loads and
fences, `.access`, `.publish` and `.store`.
-/

namespace Calvera

open Calvera.Lib Calvera.Lib.ReleaseAcquire Calvera.Protocol

variable {E P Q : Type} {R : RingSize} {T : Topology Nat} {producerBarrier : Barrier}

-- ---------------------------------------------------------------------------
-- Values of atomics
-- ---------------------------------------------------------------------------

/-- The values of the atomics in a memory. -/
def Memory.value (m : Memory E) : (x : Loc) → x.Value
  | .cursor => m.cursor
  | .word index => m.available index
  | .shutdownAtSequence => m.shutdownAtSequence
  | .consumerCursor c => m.consumerCursors c

@[simp] theorem Memory.value_ofValues (slots : Nat → E) (value : (x : Loc) → x.Value) :
    (Memory.ofValues slots value).value = value := by
  funext x
  cases x <;> rfl

theorem Memory.ofValues_value (m : Memory E) : Memory.ofValues m.slots m.value = m := rfl

/-- Another value of one atomic. -/
theorem Memory.ofValues_storeCursor (slots : Nat → E) (value : (x : Loc) → x.Value) (c : Nat)
    (v : Int) : Memory.ofValues slots (Function.update value (.consumerCursor c) v) =
      (Memory.ofValues slots value).storeCursor c v := by
  simp only [ofValues, storeCursor, Memory.mk.injEq]
  refine ⟨trivial, rfl, funext fun index => ?_, rfl, funext fun c' => ?_⟩
  · simp
  · rcases eq_or_ne c' c with rfl | hne
    · simp
    · simp [hne]

theorem Memory.ofValues_setCursor (slots : Nat → E) (value : (x : Loc) → x.Value) (v : Int) :
    Memory.ofValues slots (Function.update value .cursor v) =
      (Memory.ofValues slots value).setCursor v := by
  simp [ofValues, setCursor]

theorem Memory.ofValues_storeShutdown (slots : Nat → E) (value : (x : Loc) → x.Value) (v : Int) :
    Memory.ofValues slots (Function.update value .shutdownAtSequence v) =
      (Memory.ofValues slots value).storeShutdown v := by
  simp [ofValues, storeShutdown]

theorem Memory.ofValues_fetchXor (slots : Nat → E) (value : (x : Loc) → x.Value) (index : Nat)
    (mask : BitVec 64) :
    Memory.ofValues slots (Function.update value (.word index) (value (.word index) ^^^ mask)) =
      (Memory.ofValues slots value).fetchXor index mask := by
  simp only [ofValues, fetchXor, Memory.mk.injEq]
  refine ⟨trivial, rfl, funext fun index' => ?_, rfl, funext fun c => ?_⟩
  · rcases eq_or_ne index' index with rfl | hne
    · simp
    · simp [hne]
  · simp

/-- **A step of `get_after` reads nothing but what it loads.** -/
theorem GetAfter.step_congr {g : GetAfter} {m m' : Memory E}
    (h : ∀ x, g.loads R = some x → m.value x = m'.value x) : g.step R m = g.step R m' := by
  cases g with
  | loadProducer => exact congrArg Sum.inr (h .cursor rfl)
  | loadConsumer cursor => exact congrArg Sum.inr (h (.consumerCursor cursor) rfl)
  | fold minSequence rest =>
    cases rest with
    | nil => rfl
    | cons cursor rest =>
      have hCursor : m.consumerCursors cursor = m'.consumerCursors cursor :=
        h (.consumerCursor cursor) rfl
      simp only [step, hCursor]
  | scanStart prev =>
    have hWord : m.available (R.calculateAvailabilityIndices prev).1 =
        m'.available (R.calculateAvailabilityIndices prev).1 := h (.word _) rfl
    simp only [step, Scan.start, hWord]
  | scan v =>
    suffices hScan : v.step R m.available = v.step R m'.available by simp only [step, hScan]
    unfold Scan.step
    by_cases hBit : v.availability &&& 1#64 = v.availabilityFlag
    · by_cases hlt : v.bitIndex < 63
      · simp only [hBit, hlt, if_true]
      · have hWord : m.available (R.calculateAvailabilityIndices (v.highestAvailable + 1)).1 =
            m'.available (R.calculateAvailabilityIndices (v.highestAvailable + 1)).1 :=
          h (.word _) (by simp [loads, hBit, hlt])
        simp only [hBit, hlt, hWord]
    · simp only [hBit, ne_eq, not_false_eq_true, if_true]

-- ---------------------------------------------------------------------------
-- The picture of one thread
-- ---------------------------------------------------------------------------

/-- Where the publication of a sequence shows. -/
def Barrier.shownAt (R : RingSize) (producerBarrier : Barrier) (t : Int) : Loc :=
  match producerBarrier with
  | .multiProducer => .word (R.calculateAvailabilityIndices t).1
  | _ => .cursor

/-- The value of an atomic shows that these sequences are published. -/
def Barrier.Shows (R : RingSize) (producerBarrier : Barrier) (published : Set Int) :
    (x : Loc) → x.Value → Prop
  | .cursor, cursor => producerBarrier = .uniProducer → ∀ t, t ∈ published ↔ t ≤ cursor
  | .word index, bits => producerBarrier = .multiProducer →
    ∀ t ∈ published, (R.calculateAvailabilityIndices t).1 = index → t + R.size ∉ published →
      bits.getLsbD (slotOf R.size t % 64) = oddRound R.size t
  | .shutdownAtSequence, _ | .consumerCursor _, _ => True

/-- The memory as a thread has seen it. -/
def seenMemory (slots : Nat → E) (M : AtomicMachine) (θ : Party) : Memory E :=
  .ofValues slots (M.value θ)

/-- The state of the pipeline as a thread has seen it, as far as passing a level
depends on it; `shown x k` is what write number `k` of `x` shows. -/
def seenState (R : RingSize) (producerBarrier : Barrier) (M : AtomicMachine)
    (shown : Loc → Nat → Set Int) (θ : Party) : State Nat where
  claimed := NONE
  published := {t | t ∈ shown (producerBarrier.shownAt R t)
    ((M.views θ).seen (producerBarrier.shownAt R t))}
  cursor c := M.value θ (.consumerCursor c)
  granted _ := NONE

/-- What the atomics carry, and the log of the accesses. -/
structure Messages (R : RingSize) (T : Topology Nat) (producerBarrier : Barrier)
    (M : AtomicMachine) (a : State Nat) (shown : Loc → Nat → Set Int) : Prop where
  wellFormed : WellFormed M
  published_of_shown : ∀ x k, k ≤ (M.history x).last → shown x k ⊆ a.published
  shown_mono : ∀ x k k', k ≤ k' → k' ≤ (M.history x).last → shown x k ⊆ shown x k'
  /-- Nothing that is published is missing in the newest writes. -/
  newest : ∀ t ∈ a.published, t ∈ shown (producerBarrier.shownAt R t)
    (M.history (producerBarrier.shownAt R t)).last
  shows : ∀ (x : Loc) (k : Nat) (message : Message x.Value),
    (M.history x).messages[k]? = some message →
      producerBarrier.Shows R (shown x k) x message.value
  /-- A publication takes the writes along. -/
  writes : ∀ (x : Loc) (k : Nat) (message : Message x.Value),
    (M.history x).messages[k]? = some message →
      ∀ t ∈ shown x k, producerBarrier.shownAt R t = x →
        Informed M.log message.released fun b => b.thread.consumer? = none ∧ b.target = t
  cursor : ∀ c, M.newest (.consumerCursor c) = a.cursor c
  sorted : ∀ (c k k' : Nat) (message message' : Message Int), k ≤ k' →
    (M.history (.consumerCursor c)).messages[k]? = some message →
    (M.history (.consumerCursor c)).messages[k']? = some message' → message.value ≤ message'.value
  /-- The cursor of a consumer takes along what it is done with. -/
  done : ∀ c ∈ T.members, ∀ (k : Nat) (message : Message Int),
    (M.history (.consumerCursor c)).messages[k]? = some message →
      Done T Party.consumer? M.log message.released c message.value
  logged : Logged T Party.consumer? R.size a M.log
  ordered : Ordered (fun t t' => R.slot t = R.slot t') M.log

/-- The machine grows, and what the writes show stays as it is. -/
structure Extends (M M' : AtomicMachine) (shown shown' : Loc → Nat → Set Int) : Prop where
  grows : Grows M M'
  shown : ∀ x k, k ≤ (M.history x).last → shown' x k = shown x k

namespace Messages

variable {M M' : AtomicMachine} {a a' : State Nat} {shown shown' : Loc → Nat → Set Int}
  {θ : Party} {j : Nat} {v : Int}

/-- What a builder sets up. -/
theorem init (hPublished : a.published = {t | t < 0}) (hCursor : a.cursor = fun _ => NONE) :
    Messages R T producerBarrier (.init Loc.initial) a fun _ _ => {t | t < 0} := by
  have hOnly : ∀ (x : Loc) (k : Nat) (message : Message x.Value),
      (Machine.history (Machine.init Loc.initial : AtomicMachine) x).messages[k]? = some message →
        message = ⟨x.initial, ∅⟩ := by
    intro x k message hm
    have hMem := List.mem_of_getElem? hm
    simpa [Machine.init, History.messages] using hMem
  refine
    { wellFormed := .init _
      published_of_shown := fun x k _ => by rw [hPublished]
      shown_mono := fun _ _ _ _ _ => subset_rfl
      newest := fun t ht => by rwa [hPublished] at ht
      shows := fun x k message hm => ?_
      writes := fun x k message hm t _ _ i b hi => by simp [Machine.init] at hi
      cursor := fun c => by rw [hCursor]; rfl
      sorted := fun c k k' message message' _ hm hm' => by
        rw [hOnly (.consumerCursor c) k message hm, hOnly (.consumerCursor c) k' message' hm']
      done := fun c _ k message hm i b hi => by simp [Machine.init] at hi
      logged := .nil
      ordered := .nil _ }
  rw [hOnly x k message hm]
  cases x with
  | cursor =>
    intro _ t
    show t < 0 ↔ t ≤ -1
    omega
  | word index =>
    intro _ t ht _ hNext
    simp only [Set.mem_ofPred_eq, Int.not_lt] at ht hNext
    rw [oddRound_neg (by omega) ht]
    simp only [Loc.initial, BitVec.getLsbD_not, BitVec.getLsbD_zero, Bool.not_false, Bool.and_true,
      decide_eq_true_eq]
    exact Nat.mod_lt _ (by decide)
  | _ => trivial

/-- A later state of the pipeline with the same publications and cursors. -/
theorem congr (h : Messages R T producerBarrier M a shown) (hPublished : a'.published = a.published)
    (hCursor : a'.cursor = a.cursor) : Messages R T producerBarrier M a' shown :=
  { h with
    published_of_shown := by rw [hPublished]; exact h.published_of_shown
    newest := by rw [hPublished]; exact h.newest
    cursor := by rw [hCursor]; exact h.cursor
    logged := h.logged.later ⟨by rw [hPublished], fun c _ => by rw [hCursor]⟩ }

/-- The picture of a thread is a true one. -/
theorem represents (h : Messages R T producerBarrier M a shown)
    (hBarrier : producerBarrier = .uniProducer ∨ producerBarrier = .multiProducer ∧ 64 ∣ R.size)
    (slots : Nat → E) (θ : Party) :
    Represents R producerBarrier (seenMemory slots M θ) (seenState R producerBarrier M shown θ) := by
  refine ⟨fun c => rfl, ?_⟩
  rcases hBarrier with rfl | ⟨rfl, h64⟩
  · intro t
    obtain ⟨message, hm, hValue⟩ := Machine.exists_seen h.wellFormed θ .cursor
    show t ∈ shown _ _ ↔ t ≤ M.value θ .cursor
    rw [hValue]
    exact h.shows .cursor _ message hm rfl t
  · refine ⟨h64, fun t ht hNext => ?_⟩
    have hIndex := R.calculateAvailabilityIndices_eq
    have hWord : ∀ s, slotOf R.size s = slotOf R.size t →
        Barrier.shownAt R .multiProducer s = .word (slotOf R.size t / 64) := by
      intro s hs
      simp [Barrier.shownAt, hIndex, hs]
    obtain ⟨message, hm, hValue⟩ := Machine.exists_seen h.wellFormed θ
      (.word (slotOf R.size t / 64))
    simp only [seenState, Set.mem_ofPred_eq] at ht hNext
    rw [hWord t rfl] at ht
    rw [hWord (t + R.size) (slotOf_add_size t)] at hNext
    have hShows := h.shows _ _ message hm rfl t ht (by rw [hIndex]) hNext
    rwa [← hValue] at hShows

/-- It is a picture of the past. -/
theorem seenState_le (h : Messages R T producerBarrier M a shown) (θ : Party) :
    (seenState R producerBarrier M shown θ).Later T a := by
  refine ⟨fun t ht => ?_, fun c _ => ?_⟩
  · exact h.published_of_shown _ _ (h.wellFormed.seen_le θ _) ht
  · obtain ⟨message, hm, hValue⟩ := Machine.exists_seen h.wellFormed θ (.consumerCursor c)
    show M.value θ (.consumerCursor c) ≤ a.cursor c
    rw [hValue, ← h.cursor c]
    exact h.sorted c _ _ _ _ (h.wellFormed.seen_le θ _) hm (History.getElem?_last _)

/-- **Pictures only become newer.** -/
theorem seenState_later (h : Messages R T producerBarrier M a shown)
    (h' : Messages R T producerBarrier M' a' shown') (hExt : Extends M M' shown shown')
    (θ : Party) : (seenState R producerBarrier M shown θ).Later T
      (seenState R producerBarrier M' shown' θ) := by
  refine ⟨fun t ht => ?_, fun c _ => ?_⟩
  · have hOld := h.wellFormed.seen_le θ (producerBarrier.shownAt R t)
    refine h'.shown_mono _ _ _ (hExt.grows.seen θ _) (h'.wellFormed.seen_le θ _) ?_
    rw [hExt.shown _ _ hOld]
    exact ht
  · obtain ⟨message, hm, hValue⟩ := Machine.exists_seen h.wellFormed θ (.consumerCursor c)
    obtain ⟨message', hm', hValue'⟩ := Machine.exists_seen h'.wellFormed θ (.consumerCursor c)
    show M.value θ (.consumerCursor c) ≤ M'.value θ (.consumerCursor c)
    rw [hValue, hValue']
    exact h'.sorted c _ _ _ _ (hExt.grows.seen θ _) (hExt.grows.messages _ _ _ hm) hm'

/-- **What has passed a level in a picture comes with its accesses**, after an
acquire fence. -/
theorem knows (h : Messages R T producerBarrier M a shown) (hj : j ≤ T.last + 1)
    (hPassed : (seenState R producerBarrier M shown θ).Passed T j v) :
    Knows T Party.consumer? M.log (M.views θ).acquired j v := by
  cases j with
  | zero =>
    rintro i b hi ⟨hLevel, hTarget⟩
    have hWriter : b.thread.consumer? = none := by
      cases hReader : b.thread.consumer? with
      | none => rfl
      | some c =>
        rw [level_reader hReader] at hLevel
        omega
    obtain ⟨message, hm, -⟩ := Machine.exists_seen h.wellFormed θ
      (producerBarrier.shownAt R b.target)
    refine h.wellFormed.found θ _ message hm ?_
    exact h.writes _ _ message hm b.target (hPassed b.target hTarget) rfl i b hi ⟨hWriter, rfl⟩
  | succ j =>
    refine Knows.of_done (by omega) (fun c hMem hStage => ?_)
      fun b hb c hReader => (h.logged.readers b hb c hReader).1
    obtain ⟨message, hm, hValue⟩ := Machine.exists_seen h.wellFormed θ (.consumerCursor c)
    have hle : v ≤ M.value θ (.consumerCursor c) := hPassed c hMem hStage
    rw [hValue] at hle
    exact (h.done c hMem _ message hm).mono (h.wellFormed.found θ _ message hm)
      fun b hb => ⟨hb.1.trans hle, hb.2⟩

-- ---------------------------------------------------------------------------
-- What threads do
-- ---------------------------------------------------------------------------

/-- Loads and fences change what a thread sees and knows. -/
theorem views (h : Messages R T producerBarrier M a shown) (hHistory : M'.history = M.history)
    (hLog : M'.log = M.log) (hWf : WellFormed M') : Messages R T producerBarrier M' a shown where
  wellFormed := hWf
  published_of_shown := by rw [hHistory]; exact h.published_of_shown
  shown_mono := by rw [hHistory]; exact h.shown_mono
  newest := by rw [hHistory]; exact h.newest
  shows := by rw [hHistory]; exact h.shows
  writes := by rw [hHistory, hLog]; exact h.writes
  cursor c := by rw [← h.cursor c, Machine.newest, Machine.newest, hHistory]
  sorted := by rw [hHistory]; exact h.sorted
  done := by rw [hHistory, hLog]; exact h.done
  logged := by rw [hLog]; exact h.logged
  ordered := by rw [hLog]; exact h.ordered

/-- An access that is allowed, and knows all it conflicts with. -/
theorem access (h : Messages R T producerBarrier M a shown) (hInv : Inv T R.size a) {t : Int}
    {isWrite : Bool} (hPerform : M.perform θ (.access t isWrite) = some M')
    (hAllowed : Allowed T Party.consumer? a θ t) (hWrite : isWrite = true ↔ θ.consumer? = none)
    (hKnown : Informed M.log (M.views θ).current fun b =>
      R.slot b.target = R.slot t ∧ (b.isWrite = true ∨ isWrite = true)) :
    Messages R T producerBarrier M' a shown := by
  have hWf := h.wellFormed.perform hPerform
  obtain rfl := Option.some.inj hPerform
  exact
    { h with
      wellFormed := hWf
      writes := fun x k message hm s hs hx => by
        refine (h.writes x k message hm s hs hx).extend ?_
        rintro ⟨hWriter, rfl⟩
        exact (hAllowed.writer hWriter).1
          (h.published_of_shown x k ((M.history x).le_last hm) hs)
      done := fun c hMem k message hm => by
        have hle := h.sorted c _ _ _ _ ((M.history _).le_last hm) hm (History.getElem?_last _)
        exact (h.done c hMem k message hm).extend hInv hMem (by rw [← h.cursor c]; exact hle)
          hAllowed
      logged := h.logged.snoc hInv hAllowed hWrite
      ordered := h.ordered.snoc hKnown }

/-- What the writes of an atomic show, with one more. -/
theorem shown_push (h : Messages R T producerBarrier M a shown) (a' : State Nat) {x : Loc}
    {message : Message x.Value}
    (hHistory : M'.history = Function.update M.history x ((M.history x).push message))
    (hPublished : a.published ⊆ a'.published)
    (hNew : ∀ t ∈ a'.published, t ∉ a.published → producerBarrier.shownAt R t = x)
    (hShown : shown' = Function.update shown x fun k =>
      if k = (M.history x).last + 1 then a'.published else shown x k) :
    (∀ y k, k ≤ (M'.history y).last → shown' y k ⊆ a'.published) ∧
      (∀ y k k', k ≤ k' → k' ≤ (M'.history y).last → shown' y k ⊆ shown' y k') ∧
      ∀ t ∈ a'.published, t ∈ shown' (producerBarrier.shownAt R t)
        (M'.history (producerBarrier.shownAt R t)).last := by
  subst hShown
  rw [hHistory]
  refine ⟨fun y k hk => ?_, fun y k k' hk hk' => ?_, fun t ht => ?_⟩
  · rcases eq_or_ne y x with rfl | hne
    · simp only [Function.update_self, History.last_push] at hk ⊢
      split
      · exact subset_rfl
      · exact (h.published_of_shown y k (by omega)).trans hPublished
    · simp only [Function.update_of_ne hne] at hk ⊢
      exact (h.published_of_shown y k hk).trans hPublished
  · rcases eq_or_ne y x with rfl | hne
    · simp only [Function.update_self, History.last_push] at hk' ⊢
      rcases Nat.lt_or_eq_of_le hk' with hlt | hEq
      · rw [if_neg (by omega), if_neg (by omega)]
        exact h.shown_mono y k k' hk (by omega)
      · rw [if_pos hEq]
        split
        · exact subset_rfl
        · exact (h.published_of_shown y k (by omega)).trans hPublished
    · simp only [Function.update_of_ne hne] at hk' ⊢
      exact h.shown_mono y k k' hk hk'
  · rcases eq_or_ne (producerBarrier.shownAt R t) x with hEq | hne
    · rw [hEq]
      simpa using ht
    · simp only [Function.update_of_ne hne]
      refine h.newest t ?_
      by_contra hOld
      exact hne (hNew t ht hOld)

/-- **A publication**, or any other write that is not to the cursor of a consumer. -/
theorem publish (h : Messages R T producerBarrier M a shown) (a' : State Nat) {x : Loc}
    {message : Message x.Value} (hx : ∀ c, x ≠ .consumerCursor c)
    (hHistory : M'.history = Function.update M.history x ((M.history x).push message))
    (hLog : M'.log = M.log) (hWf : WellFormed M') (hGrows : Grows M M')
    (hPublished : a.published ⊆ a'.published) (hCursor : a'.cursor = a.cursor)
    (hNew : ∀ t ∈ a'.published, t ∉ a.published → producerBarrier.shownAt R t = x)
    (hShows : producerBarrier.Shows R a'.published x message.value)
    (hWrites : ∀ t ∈ a'.published, producerBarrier.shownAt R t = x →
      Informed M.log message.released fun b => b.thread.consumer? = none ∧ b.target = t) :
    ∃ shown', Messages R T producerBarrier M' a' shown' ∧ Extends M M' shown shown' := by
  refine ⟨Function.update shown x fun k =>
    if k = (M.history x).last + 1 then a'.published else shown x k, ?_, hGrows, fun y k hk => ?_⟩
  · obtain ⟨hSub, hMono, hNewest⟩ := h.shown_push a' hHistory hPublished hNew rfl
    have hCursors : ∀ c, M'.history (.consumerCursor c) = M.history (.consumerCursor c) := by
      intro c
      rw [hHistory, Function.update_of_ne (hx c).symm]
    refine
      { wellFormed := hWf
        published_of_shown := hSub
        shown_mono := hMono
        newest := hNewest
        shows := fun y k message' hm => ?_
        writes := fun y k message' hm t ht hy => ?_
        cursor := fun c => by rw [hCursor, ← h.cursor c, Machine.newest, Machine.newest, hCursors]
        sorted := fun c => by rw [hCursors]; exact h.sorted c
        done := fun c hMem => by rw [hCursors, hLog]; exact h.done c hMem
        logged := by rw [hLog]; exact h.logged.later ⟨hPublished, fun c _ => by rw [hCursor]⟩
        ordered := by rw [hLog]; exact h.ordered }
    · rw [hHistory] at hm
      rcases eq_or_ne y x with rfl | hne
      · rw [Function.update_self, History.getElem?_push] at hm
        rw [Function.update_self]
        split at hm
        · obtain rfl := Option.some.inj hm
          rw [if_pos ‹_›]
          exact hShows
        · rw [if_neg ‹_›]
          exact h.shows y k message' hm
      · rw [Function.update_of_ne hne] at hm ⊢
        exact h.shows y k message' hm
    · rw [hHistory] at hm
      rw [hLog]
      rcases eq_or_ne y x with rfl | hne
      · rw [Function.update_self, History.getElem?_push] at hm
        rw [Function.update_self] at ht
        split at hm
        · obtain rfl := Option.some.inj hm
          rw [if_pos ‹_›] at ht
          exact hWrites t ht hy
        · rw [if_neg ‹_›] at ht
          exact h.writes y k message' hm t ht hy
      · rw [Function.update_of_ne hne] at hm ht
        exact h.writes y k message' hm t ht hy
  · rcases eq_or_ne y x with rfl | hne
    · rw [Function.update_self, if_neg (by omega)]
    · rw [Function.update_of_ne hne]

/-- **A consumer stores its cursor.** -/
theorem store (h : Messages R T producerBarrier M a shown) (a' : State Nat) {c : Nat}
    {message : Message Int} (hHistory : M'.history = Function.update M.history (.consumerCursor c)
      ((M.history (.consumerCursor c)).push message))
    (hLog : M'.log = M.log) (hWf : WellFormed M') (hGrows : Grows M M')
    (hPublished : a'.published = a.published)
    (hCursor : a'.cursor = Function.update a.cursor c message.value)
    (hle : a.cursor c ≤ message.value)
    (hDone : Done T Party.consumer? M.log message.released c message.value) :
    ∃ shown', Messages R T producerBarrier M' a' shown' ∧ Extends M M' shown shown' := by
  refine ⟨Function.update shown (.consumerCursor c) fun k =>
    if k = (M.history (.consumerCursor c)).last + 1 then a'.published
    else shown (.consumerCursor c) k, ?_, hGrows, fun y k hk => ?_⟩
  · obtain ⟨hSub, hMono, hNewest⟩ := h.shown_push a' hHistory (by rw [hPublished])
      (fun t ht hOld => absurd (hPublished ▸ ht) hOld) rfl
    have hShownAt : ∀ t, producerBarrier.shownAt R t ≠ .consumerCursor c := by
      intro t
      unfold Barrier.shownAt
      split <;> simp
    have hValue : ∀ (k : Nat) (message' : Message Int),
        (M.history (.consumerCursor c)).messages[k]? = some message' →
          message'.value ≤ message.value := by
      intro k message' hm
      refine le_trans ?_ hle
      rw [← h.cursor c]
      exact h.sorted c _ _ _ _ ((M.history _).le_last hm) hm (History.getElem?_last _)
    refine
      { wellFormed := hWf
        published_of_shown := hSub
        shown_mono := hMono
        newest := hNewest
        shows := fun y k message' hm => ?_
        writes := fun y k message' hm t ht hy => ?_
        cursor := fun c' => ?_
        sorted := fun c' k k' message' message'' hk hm hm' => ?_
        done := fun c' hMem k message' hm => ?_
        logged := ?_
        ordered := by rw [hLog]; exact h.ordered }
    · rcases eq_or_ne y (.consumerCursor c) with rfl | hne
      · trivial
      · rw [hHistory, Function.update_of_ne hne] at hm
        rw [Function.update_of_ne hne]
        exact h.shows y k message' hm
    · have hne : y ≠ .consumerCursor c := hy ▸ hShownAt t
      rw [hHistory, Function.update_of_ne hne] at hm
      rw [Function.update_of_ne hne] at ht
      rw [hLog]
      exact h.writes y k message' hm t ht hy
    · rw [Machine.newest_of_history hHistory, hCursor]
      rcases eq_or_ne c' c with rfl | hne
      · simp
      · simp [hne, h.cursor c']
    · rw [hHistory] at hm hm'
      rcases eq_or_ne c' c with rfl | hne
      · rw [Function.update_self, History.getElem?_push] at hm hm'
        split at hm'
        · obtain rfl := Option.some.inj hm'
          split at hm
          · obtain rfl := Option.some.inj hm
            exact le_refl _
          · exact hValue k message' hm
        · have := (M.history (.consumerCursor c')).le_last hm'
          rw [if_neg (by omega)] at hm
          exact h.sorted c' k k' message' message'' hk hm hm'
      · rw [Function.update_of_ne (by simpa using hne)] at hm hm'
        exact h.sorted c' k k' message' message'' hk hm hm'
    · rw [hHistory] at hm
      rw [hLog]
      rcases eq_or_ne c' c with rfl | hne
      · rw [Function.update_self, History.getElem?_push] at hm
        split at hm
        · obtain rfl := Option.some.inj hm
          exact hDone
        · exact h.done c' hMem k message' hm
      · rw [Function.update_of_ne (by simpa using hne)] at hm
        exact h.done c' hMem k message' hm
    · rw [hLog]
      refine h.logged.later ⟨by rw [hPublished], fun c' _ => ?_⟩
      rw [hCursor]
      rcases eq_or_ne c' c with rfl | hne
      · simpa using hle
      · simp [hne]
  · rcases eq_or_ne y (.consumerCursor c) with rfl | hne
    · rw [Function.update_self, if_neg (by omega)]
    · rw [Function.update_of_ne hne]

end Messages

end Calvera
