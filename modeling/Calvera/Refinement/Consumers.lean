import Calvera.Code.System
import Calvera.Refinement.GetAfter

/-!
# Refinement — consumers

The consumers of a running disruptor move as the consumers of the pipeline do.
A consumer inside a batch or a guard has been granted what its barrier
answered; otherwise it has been granted what its cursor says. Storing the
cursor releases the grant.

`System.Consistent` is the part of the invariant that does not depend on the
producers; `Consistent.consumer` shows that every step of a consumer keeps it,
`Consistent.producer` what a step of the producer side has to provide.
-/

namespace Calvera

open Calvera.Lib Calvera.Protocol

variable {E P : Type} {R : RingSize} {T : Topology Nat} {producerBarrier : Barrier}
  {a a' : State Nat} {c : Nat}

/-- The highest sequence a consumer may read. -/
def ConsumerPc.granted (cursor : Int) : ConsumerPc → Int
  | .batch _ available | .handler _ available | .guard _ available => available
  | _ => cursor

/-- What a consumer may read at this moment: from its local sequence to
`available`, or the range of its guard. -/
def ConsumerPc.Entitled (cursor : Int) (s : Int) : ConsumerPc → Prop
  | .batch sequence available | .handler sequence available => sequence ≤ s ∧ s ≤ available
  | .guard _ available => cursor < s ∧ s ≤ available
  | _ => False

instance (cursor s : Int) : (pc : ConsumerPc) → Decidable (pc.Entitled cursor s)
  | .batch _ _ | .handler _ _ | .guard _ _ => inferInstanceAs (Decidable (_ ∧ _))
  | .waitForEvents _ _ | .checkShutdown _ | .exited | .idle _ | .readShutdown _ _
  | .getAvailable _ _ _ => inferInstanceAs (Decidable False)

/-- The next sequence to be handed to a consumer. -/
def ConsumerPc.nextSequence (cursor : Int) : ConsumerPc → Int
  | .batch sequence _ | .guard sequence _ => sequence
  | .handler sequence _ => sequence + 1
  | _ => cursor + 1

def System.nextSequence (s : System P E) (c : Nat) : Int :=
  (s.consumers c).nextSequence (s.memory.consumerCursors c)

/-- Consumers start with sequence `0`. -/
theorem System.init_nextSequence (w : Wiring) (factory : Nat → E) (producer : P) (c : Nat) :
    (System.init w factory producer).nextSequence c = 0 := by
  show ((System.init w factory producer).consumers c).nextSequence NONE = 0
  simp only [System.init]
  split
  · unfold ConsumerSpec.start
    split <;> rfl
  · rfl

/-- Slot exclusion, of the slots as the code computes them. -/
theorem ring_exclusion (hInv : Inv T R.size a) {s t : Int} (hs : s ∉ a.published)
    (hsLe : s ≤ a.claimed)
    (ht : (t ∉ a.published ∧ t ≤ a.claimed) ∨
      ∃ c ∈ T.members, a.cursor c < t ∧ t ≤ a.granted c)
    (hSlot : R.slot s = R.slot t) : s = t := by
  rw [R.slot_eq, R.slot_eq] at hSlot
  exact hInv.slot_exclusion R.pos hs hsLe ht hSlot

/-- What the local variables of consumer `c` say. -/
def ConsumerPc.Ok (R : RingSize) (T : Topology Nat) (producerBarrier : Barrier) (a : State Nat)
    (c : Nat) : ConsumerPc → Prop
  | .waitForEvents q g => q = a.cursor c + 1 ∧ g.Sound R T producerBarrier a (T.stage c) q
  | .checkShutdown q => q = a.cursor c + 1
  | .batch q v => a.cursor c < q ∧ q ≤ v + 1 ∧ a.cursor c < v
  | .handler q v => a.cursor c < q ∧ q ≤ v
  | .exited | .idle _ => True
  | .readShutdown at_ _ => at_ = a.cursor c
  | .getAvailable at_ _ g =>
    at_ = a.cursor c ∧ g.Sound R T producerBarrier a (T.stage c) (at_ + 1)
  | .guard q v => a.cursor c < q ∧ q ≤ v + 1

/-- What others do leaves a consumer's local variables in order. -/
theorem ConsumerPc.Ok.later {pc : ConsumerPc} (h : pc.Ok R T producerBarrier a c)
    (hLater : a.Later T a') (hSame : a'.cursor c = a.cursor c) :
    pc.Ok R T producerBarrier a' c := by
  cases pc with
  | waitForEvents q g => exact ⟨by rw [hSame]; exact h.1, h.2.later hLater⟩
  | getAvailable at_ limit g => exact ⟨by rw [hSame]; exact h.1, h.2.later hLater⟩
  | _ => simp_all [Ok]

/-- The sequences made available so far; those below `0` count as well. -/
def publishedBy (tr : List (Event E)) : Set Int := {s | s < 0 ∨ s ∈ flips tr}

@[simp] theorem mem_publishedBy {tr : List (Event E)} {s : Int} :
    s ∈ publishedBy tr ↔ s < 0 ∨ s ∈ flips tr := Iff.rfl

/-- The state of the pipeline that a running disruptor stands for. -/
def System.pipeline (s : System P E) (claimed : Int) (published : Set Int) : State Nat where
  claimed := claimed
  published := published
  cursor := s.memory.consumerCursors
  granted := fun c => (s.consumers c).granted (s.memory.consumerCursors c)

/-- All bits are set initially. -/
theorem Memory.init_bit (factory : Nat → E) : (Memory.init factory).bit = fun _ => true := by
  funext i
  simp only [bit, init, BitVec.getLsbD_not, BitVec.getLsbD_zero, Bool.not_false, Bool.and_true,
    decide_eq_true_eq]
  exact Nat.mod_lt i (by decide)

/-- The consumers and the memory agree with a reachable state of the pipeline. -/
structure System.Consistent (R : RingSize) (T : Topology Nat) (producerBarrier : Barrier)
    (s : System P E) (claimed : Int) (published : Set Int) : Prop where
  reachable : Reachable T R.size (s.pipeline claimed published)
  represents : Represents R producerBarrier s.memory (s.pipeline claimed published)
  consumers : ∀ c ∈ T.members,
    (s.consumers c).Ok R T producerBarrier (s.pipeline claimed published) c
  claimed_le : claimed ≤ i64Max

namespace System.Consistent

variable {s s' : System P E} {claimed claimed' : Int} {published published' : Set Int}

theorem inv (h : s.Consistent R T producerBarrier claimed published) :
    Inv T R.size (s.pipeline claimed published) := h.reachable.inv

/-- The round around the next sequence of a consumer. -/
theorem lap (h : s.Consistent R T producerBarrier claimed published) (hMem : c ∈ T.members) :
    Lap R.size published (s.memory.consumerCursors c) := h.inv.lap hMem

/-- What a consumer is entitled to read, it has been granted. -/
theorem entitled (h : s.Consistent R T producerBarrier claimed published) (hMem : c ∈ T.members)
    {t : Int} (hEntitled : (s.consumers c).Entitled (s.memory.consumerCursors c) t) :
    s.memory.consumerCursors c < t ∧ t ≤ (s.pipeline claimed published).granted c := by
  have hOk := h.consumers c hMem
  show _ ∧ t ≤ (s.consumers c).granted (s.memory.consumerCursors c)
  cases hPc : s.consumers c with
  | batch q v =>
    rw [hPc] at hOk hEntitled
    exact ⟨lt_of_lt_of_le hOk.1 hEntitled.1, hEntitled.2⟩
  | handler q v =>
    rw [hPc] at hOk hEntitled
    exact ⟨lt_of_lt_of_le hOk.1 hEntitled.1, hEntitled.2⟩
  | guard q v =>
    rw [hPc] at hEntitled
    exact hEntitled
  | _ =>
    rw [hPc] at hEntitled
    exact hEntitled.elim

/-- The next sequence of a consumer is ahead of its cursor, and at most one
ahead of what it was granted. -/
theorem next_bounds (h : s.Consistent R T producerBarrier claimed published)
    (hMem : c ∈ T.members) :
    s.memory.consumerCursors c < s.nextSequence c ∧
      (s.nextSequence c = s.memory.consumerCursors c + 1 ∨
        s.nextSequence c ≤ (s.consumers c).granted (s.memory.consumerCursors c) + 1) := by
  have hOk := h.consumers c hMem
  unfold System.nextSequence
  cases hPc : s.consumers c <;> rw [hPc] at hOk <;>
    simp only [ConsumerPc.nextSequence, ConsumerPc.granted]
  case batch q v =>
    obtain ⟨hlo, hhi, -⟩ := hOk
    have : s.memory.consumerCursors c < q := hlo
    omega
  case handler q v =>
    obtain ⟨hlo, hhi⟩ := hOk
    have : s.memory.consumerCursors c < q := hlo
    omega
  case guard q v =>
    obtain ⟨hlo, hhi⟩ := hOk
    have : s.memory.consumerCursors c < q := hlo
    omega
  all_goals omega

/-- A step of the producer side keeps everything consistent when the pipeline
allows it and the memory shows its result. -/
theorem producer (h : s.Consistent R T producerBarrier claimed published)
    (hConsumers : s'.consumers = s.consumers)
    (hCursors : s'.memory.consumerCursors = s.memory.consumerCursors)
    (hSteps : Steps T R.size (s.pipeline claimed published) (s.pipeline claimed' published'))
    (hRep : Represents R producerBarrier s'.memory (s.pipeline claimed' published'))
    (hMax : claimed' ≤ i64Max) : s'.Consistent R T producerBarrier claimed' published' := by
  have hSame : s'.pipeline claimed' published' = s.pipeline claimed' published' := by
    simp only [pipeline, hConsumers, hCursors]
  refine ⟨?_, ?_, fun c hMem => ?_, hMax⟩
  · rw [hSame]
    exact h.reachable.trans hSteps
  · rw [hSame]
    exact hRep
  · rw [hSame, hConsumers]
    exact (h.consumers c hMem).later hSteps.later rfl

/-- The state in which `build` leaves everything is the initial one. -/
theorem init {w : Wiring} (hWired : Wired T producerBarrier w)
    (hBarrier : producerBarrier = .uniProducer ∨ producerBarrier = .multiProducer ∧ 64 ∣ R.size)
    (factory : Nat → E) (producer : P) :
    (System.init w factory producer).Consistent R T producerBarrier NONE {s | s < 0} := by
  have hStart : ∀ spec : ConsumerSpec, spec.start.granted NONE = NONE := by
    intro spec
    unfold ConsumerSpec.start
    cases spec.kind <;> rfl
  have hInit : (System.init w factory producer).pipeline NONE {s | s < 0} = State.init := by
    simp only [pipeline, System.init, Memory.init, State.init, State.mk.injEq]
    refine ⟨rfl, trivial, rfl, funext fun c => ?_⟩
    cases w.consumers[c]? with
    | none => rfl
    | some spec => exact hStart spec
  have hRep : Represents R producerBarrier (Memory.init factory) State.init := by
    refine ⟨fun _ => rfl, ?_⟩
    rcases hBarrier with rfl | ⟨rfl, h64⟩
    · intro s
      show s < 0 ↔ s ≤ -1
      omega
    · refine ⟨h64, ?_⟩
      rw [Memory.init_bit]
      exact encodes_init
  refine ⟨hInit ▸ .refl, hInit ▸ hRep, fun c hMem => ?_, by decide⟩
  rw [hInit]
  obtain ⟨spec, hSpec⟩ : ∃ spec, w.consumers[c]? = some spec :=
    ⟨_, List.getElem?_eq_getElem ((hWired.mem_iff c).mp hMem)⟩
  simp only [System.init, hSpec, ConsumerSpec.start]
  cases spec.kind with
  | poller => trivial
  | _ => exact ⟨rfl, (hWired.dependentBarrier hSpec).sound hRep 0⟩

-- ---------------------------------------------------------------------------
-- Steps of consumers
-- ---------------------------------------------------------------------------

variable {b : Barrier} {m' : Memory E} {pc' : ConsumerPc} {es : List (Event E)}

/-- A step that does not change the grant is no move of the pipeline. -/
theorem pipeline_stay (hPc : pc'.granted (s.memory.consumerCursors c) =
      (s.consumers c).granted (s.memory.consumerCursors c)) :
    { s with consumers := Function.update s.consumers c pc' }.pipeline claimed published =
      s.pipeline claimed published := by
  simp only [pipeline, State.mk.injEq, true_and]
  funext c'
  rcases eq_or_ne c' c with rfl | hne
  · simp [hPc]
  · simp [hne]

/-- Entering a batch or a guard takes the grant. -/
theorem pipeline_grant (v : Int) (hPc : pc'.granted (s.memory.consumerCursors c) = v) :
    { s with consumers := Function.update s.consumers c pc' }.pipeline claimed published =
      { s.pipeline claimed published with
        granted := Function.update (s.pipeline claimed published).granted c v } := by
  simp only [pipeline, State.mk.injEq, true_and]
  funext c'
  rcases eq_or_ne c' c with rfl | hne
  · simp [hPc]
  · simp [hne]

/-- Storing the cursor up to the end of the grant releases it. -/
theorem pipeline_release (v : Int) (hOld : ∀ cursor, (s.consumers c).granted cursor = v)
    (hPc : ∀ cursor, pc'.granted cursor = cursor) :
    { s with
      memory := s.memory.storeCursor c v
      consumers := Function.update s.consumers c pc' }.pipeline claimed published =
      { s.pipeline claimed published with
        cursor := Function.update (s.pipeline claimed published).cursor c v } := by
  simp only [pipeline, Memory.storeCursor, State.mk.injEq, true_and]
  funext c'
  rcases eq_or_ne c' c with rfl | hne
  · simp [hPc, hOld]
  · simp [hne]

/-- **A step of a consumer is a move of the pipeline, or none**, and leaves its
local variables in order. -/
theorem consumer_steps (h : s.Consistent R T producerBarrier claimed published)
    (hMem : c ∈ T.members) (hCovers : Covers T producerBarrier (T.stage c) b)
    (hStep : ConsumerStep R b c s.memory (s.consumers c) m' pc' es) :
    Steps T R.size (s.pipeline claimed published)
        ({ s with memory := m', consumers := Function.update s.consumers c pc' }.pipeline
          claimed published) ∧
      pc'.Ok R T producerBarrier
        ({ s with memory := m', consumers := Function.update s.consumers c pc' }.pipeline
          claimed published) c := by
  have hOk := h.consumers c hMem
  have hLap : Lap R.size published ((s.pipeline claimed published).cursor c + 1 - 1) := by
    rw [Int.add_sub_cancel]
    exact h.lap hMem
  have hStart := fun q => hCovers.sound h.represents q
  generalize hPc : s.consumers c = pc at hStep hOk
  cases hStep with
  | waitRead hg =>
    obtain ⟨rfl, hSound⟩ := hOk
    rw [pipeline_stay (by rw [hPc]; rfl)]
    exact ⟨.refl, rfl, (hSound.step h.represents fun _ => hLap).1 _ hg⟩
  | waitMiss hg hlt =>
    rw [pipeline_stay (by rw [hPc]; rfl)]
    exact ⟨.refl, hOk.1⟩
  | @waitHit q g v hg hle =>
    obtain ⟨rfl, hSound⟩ := hOk
    have hPassed := (hSound.step h.represents fun _ => hLap).2 _ hg
    rw [pipeline_grant v rfl]
    exact ⟨.single (.grant c v hMem (by omega) hPassed), by simp only [ConsumerPc.Ok]; omega⟩
  | exit hEq =>
    rw [pipeline_stay (by rw [hPc]; rfl)]
    exact ⟨.refl, trivial⟩
  | retry hne =>
    rw [pipeline_stay (by rw [hPc]; rfl)]
    exact ⟨.refl, hOk, hStart _⟩
  | handle hle =>
    rw [pipeline_stay (by rw [hPc]; rfl)]
    exact ⟨.refl, hOk.1, hle⟩
  | handled =>
    rw [pipeline_stay (by rw [hPc]; rfl)]
    obtain ⟨hlo, hhi⟩ := hOk
    exact ⟨.refl, by simp only [ConsumerPc.Ok]; omega⟩
  | @store q v hlt =>
    obtain ⟨hlo, hhi, -⟩ := hOk
    obtain rfl : v = q - 1 := by omega
    have hMove : Step T R.size (s.pipeline claimed published)
        { s.pipeline claimed published with
          cursor := Function.update (s.pipeline claimed published).cursor c (q - 1) } :=
      .release c (q - 1) hMem (by omega) (by simp [pipeline, hPc, ConsumerPc.granted])
    rw [pipeline_release (q - 1) (by rw [hPc]; exact fun _ => rfl) (fun _ => rfl)]
    exact ⟨.single hMove, by simp, (hStart q).later hMove.later⟩
  | pollTake =>
    rw [pipeline_stay (by rw [hPc]; rfl)]
    exact ⟨.refl, rfl⟩
  | pollShutdown hEq =>
    rw [pipeline_stay (by rw [hPc]; rfl)]
    exact ⟨.refl, trivial⟩
  | pollOpen hne =>
    rw [pipeline_stay (by rw [hPc]; rfl)]
    exact ⟨.refl, hOk, hStart _⟩
  | pollRead hg =>
    obtain ⟨rfl, hSound⟩ := hOk
    rw [pipeline_stay (by rw [hPc]; rfl)]
    exact ⟨.refl, rfl, (hSound.step h.represents fun _ => hLap).1 _ hg⟩
  | pollMiss hg hlt =>
    rw [pipeline_stay (by rw [hPc]; rfl)]
    exact ⟨.refl, trivial⟩
  | @pollHit at_ limit g v hg hle =>
    obtain ⟨rfl, hSound⟩ := hOk
    have hPassed := (hSound.step h.represents fun _ => hLap).2 _ hg
    have hMax := (h.inv.cursor_le_claimed hMem).trans h.claimed_le
    have hLimit : (s.pipeline claimed published).cursor c ≤
        saturatingAddUnsigned ((s.pipeline claimed published).cursor c) limit :=
      Int.le_min.mpr ⟨by omega, hMax⟩
    rw [pipeline_grant _ rfl]
    refine ⟨.single (.grant c _ hMem ?_ (hPassed.mono (Int.min_le_left _ _))), ?_⟩
    · exact Int.le_min.mpr ⟨by omega, hLimit⟩
    · have := Int.le_min.mpr ⟨(by omega : (s.pipeline claimed published).cursor c ≤ v), hLimit⟩
      simp only [ConsumerPc.Ok]
      omega
  | nextNone hlt =>
    rw [pipeline_stay (by rw [hPc])]
    exact ⟨.refl, hOk⟩
  | nextSome hle =>
    rw [pipeline_stay (by rw [hPc]; rfl)]
    obtain ⟨hlo, hhi⟩ := hOk
    exact ⟨.refl, by simp only [ConsumerPc.Ok]; omega⟩
  | @dropGuard q v =>
    obtain ⟨hlo, hhi⟩ := hOk
    rw [pipeline_release v (by rw [hPc]; exact fun _ => rfl) (fun _ => rfl)]
    refine ⟨.single (.release c v hMem (by omega) ?_), trivial⟩
    simp [pipeline, hPc, ConsumerPc.granted]

/-- **A step of a consumer keeps everything consistent.** -/
theorem consumer (h : s.Consistent R T producerBarrier claimed published) {w : Wiring}
    (hWired : Wired T producerBarrier w) {spec : ConsumerSpec} (hSpec : w.consumers[c]? = some spec)
    (hStep : ConsumerStep R spec.dependentBarrier c s.memory (s.consumers c) m' pc' es) :
    System.Consistent R T producerBarrier
      { s with memory := m', consumers := Function.update s.consumers c pc' } claimed published := by
  have hMem := hWired.mem hSpec
  obtain ⟨hSteps, hOk⟩ := h.consumer_steps hMem (hWired.dependentBarrier hSpec) hStep
  refine ⟨h.reachable.trans hSteps, ⟨fun _ => rfl, ?_⟩, fun c' hMem' => ?_, h.claimed_le⟩
  · -- the producer barrier is not written to
    have hPublished := h.represents.published
    rcases hStep.memory with rfl | ⟨v, rfl⟩
    · exact hPublished
    · exact hPublished
  · rcases eq_or_ne c' c with rfl | hne
    · simpa using hOk
    · simpa [hne] using (h.consumers c' hMem').later hSteps.later (hStep.cursor_ne hne)

/-- Cursors of consumers only move forward. -/
theorem cursor_mono {A : Type} (h : s.Consistent R T producerBarrier claimed published)
    {w : Wiring} (hWired : Wired T producerBarrier w) {act : Act A}
    (hMove : SystemMove R w s act s' es) :
    ∀ c ∈ T.members, s.memory.consumerCursors c ≤ s'.memory.consumerCursors c := by
  cases hMove with
  | consumer hSpec hStep =>
    have hSteps := (h.consumer_steps (hWired.mem hSpec) (hWired.dependentBarrier hSpec) hStep).1
    exact fun c hMem => hSteps.later.cursor c hMem
  | producer _ hCursors _ => exact fun c _ => le_of_eq (by rw [hCursors])

end System.Consistent

end Calvera
