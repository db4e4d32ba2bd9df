import Calvera.Lib.Execution
import Calvera.Refinement.Disruptor
import Mathlib.Data.Prod.Lex

/-!
# Refinement — consumers that are served

A consumer for which something has passed the stage before gets to it. Its
current call of `get_after` may have read too early; but then the call ends, and
the next one finds what has passed (`GetAfter.Fresh`). The distance to a higher
cursor falls with every step of the consumer (`ConsumerPc.distance`).

* `Disruptor.advances` — in a fair execution, cursors get as far as the consumers
  of all stages before.
-/

namespace Calvera

open Calvera.Lib Calvera.Protocol

variable {E P A : Type} {R : RingSize} {T : Topology Nat} {w : Wiring} {producerBarrier : Barrier}
  {m m' : Memory E} {a : State Nat} {c j : Nat} {q : Int}

-- ---------------------------------------------------------------------------
-- Calls that read late enough
-- ---------------------------------------------------------------------------

/-- When `q` has passed, the call will answer at least `q`. -/
def GetAfter.Fresh (R : RingSize) (T : Topology Nat) (j : Nat) (q : Int) : GetAfter → Prop
  | .loadProducer | .scanStart _ => True
  | .loadConsumer cursor => cursor ∈ T.members ∧ j = T.stage cursor + 1
  | .fold minSequence rest =>
    q ≤ minSequence ∧ ∀ cursor ∈ rest, cursor ∈ T.members ∧ j = T.stage cursor + 1
  | .scan v =>
    q < v.highestAvailable ∨ v.availability.getLsbD 0 = oddRound R.size v.highestAvailable

/-- A call starts fresh. -/
theorem Covers.fresh {b : Barrier} (hCovers : Covers T producerBarrier j b)
    (hRep : Represents R producerBarrier m a) (hMax : q ≤ i64Max) :
    (b.getAfter q).Fresh R T j q := by
  cases hCovers with
  | producer =>
    have hPublished := hRep.published
    cases producerBarrier with
    | uniProducer => trivial
    | multiProducer => trivial
    | uniConsumer cursor => exact hPublished.elim
    | multiConsumer cursors => exact hPublished.elim
  | @uni i cursor hOne =>
    obtain ⟨hMem, hStage⟩ := (hOne cursor).mp rfl
    exact ⟨hMem, by rw [hStage]⟩
  | @multi i cursors hAll =>
    refine ⟨hMax, fun cursor hIn => ?_⟩
    obtain ⟨hMem, hStage⟩ := (hAll cursor).mp hIn
    exact ⟨hMem, by rw [hStage]⟩

/-- **A fresh call answers what has passed.** -/
theorem GetAfter.Fresh.step {g : GetAfter} (h : g.Fresh R T j q)
    (hSound : g.Sound R T producerBarrier a j q) (hRep : Represents R producerBarrier m a)
    (hLap : j = 0 → Lap R.size a.published (q - 1)) (hPassed : a.Passed T j q) :
    (∀ g', g.step R m = .inl g' → g'.Fresh R T j q) ∧ ∀ v, g.step R m = .inr v → q ≤ v := by
  cases g with
  | loadProducer =>
    obtain ⟨rfl, rfl⟩ := hSound
    refine ⟨fun g' hg => (by simp [GetAfter.step] at hg), fun v hg => ?_⟩
    cases hg
    exact (hRep.published q).mp (hPassed q (le_refl q))
  | loadConsumer cursor =>
    obtain ⟨hMem, rfl⟩ := h
    refine ⟨fun g' hg => (by simp [GetAfter.step] at hg), fun v hg => ?_⟩
    cases hg
    rw [← hRep.cursor]
    exact hPassed cursor hMem rfl
  | fold minSequence rest =>
    obtain ⟨hMin, hRest⟩ := h
    cases rest with
    | nil =>
      refine ⟨fun g' hg => (by simp [GetAfter.step] at hg), fun v hg => ?_⟩
      cases hg
      exact hMin
    | cons cursor rest =>
      refine ⟨fun g' hg => ?_, fun v hg => (by simp [GetAfter.step] at hg)⟩
      cases hg
      refine ⟨Int.le_min.mpr ⟨?_, hMin⟩, fun c hc => hRest c (List.mem_cons_of_mem _ hc)⟩
      obtain ⟨hMem, rfl⟩ := hRest cursor (List.mem_cons_self ..)
      rw [← hRep.cursor]
      exact hPassed cursor hMem rfl
  | scanStart prev =>
    obtain ⟨rfl, rfl, rfl⟩ := hSound
    obtain ⟨h64, hEnc⟩ := hRep.published
    refine ⟨fun g' hg => ?_, fun v hg => (by simp [GetAfter.step] at hg)⟩
    cases hg
    have hReads := Scan.start_reads (m := m) h64 prev
    have hFirst := hReads.bits 0 (by have := hReads.bitIndex; omega)
    simp only [Int.natCast_zero, Int.add_zero] at hFirst
    refine .inr ?_
    rw [hFirst.1]
    refine (hEnc.bit_iff R.pos (hLap rfl) ?_ ?_).mpr (hPassed prev (le_refl prev))
    · show prev - 1 < prev
      omega
    · have := R.pos
      show prev ≤ prev - 1 + R.size
      omega
  | scan v =>
    obtain ⟨rfl, rfl, hFrom, -, hReads⟩ := hSound
    obtain ⟨h64, -⟩ := hRep.published
    have hStep := Scan.step_eq h64 hReads m.available
    rw [GetAfter.step]
    split at hStep
    · rw [hStep]
      refine ⟨fun g' hg => ?_, fun w hg => (by simp at hg)⟩
      cases hg
      refine .inl ?_
      split
      · show q < v.highestAvailable + 1
        omega
      · show q < v.highestAvailable + 1
        omega
    · rename_i hBit
      rw [hStep]
      refine ⟨fun g' hg => (by simp at hg), fun w hg => ?_⟩
      cases hg
      have := h.resolve_right hBit
      omega

-- ---------------------------------------------------------------------------
-- The distance to a higher cursor
-- ---------------------------------------------------------------------------

/-- A step towards the next event: the client polls for something, and does not
only look at its guard. -/
def ConsumerAct.serves : ConsumerAct → Bool
  | .next => false
  | .pollTake limit => decide (0 < limit)
  | .tick | .poll | .dropGuard => true

open Classical in
/-- How far a consumer with cursor `k` is from storing a higher one, while `k + 1`
has passed: the phase, and the steps it has left there. A call that read too early
is a phase of its own, and so is a guard over nothing. -/
noncomputable def ConsumerPc.distance (R : RingSize) (T : Topology Nat) (j : Nat) (k : Int) :
    ConsumerPc → ℕ ×ₗ ℕ
  | .batch q v => toLex (0, 2 * (v + 1 - q).toNat)
  | .handler q v => toLex (0, 2 * (v - q).toNat + 1)
  | .guard _ v => toLex (if k < v then 0 else 4, 0)
  | .waitForEvents q g => toLex (if g.Fresh R T j q then 1 else 3, g.remaining (k + R.size))
  | .getAvailable _ limit g =>
    toLex (if 0 < limit ∧ g.Fresh R T j (k + 1) then 1 else 5, g.remaining (k + R.size))
  | .checkShutdown _ => toLex (2, 0)
  | .readShutdown _ limit => toLex (if 0 < limit then 2 else 6, 0)
  | .idle _ | .exited => toLex (3, 0)

theorem lex_lt_of_fst {n n' k k' : ℕ} (h : n < n') : (toLex (n, k) : ℕ ×ₗ ℕ) < toLex (n', k') :=
  Prod.Lex.toLex_lt_toLex.mpr (.inl h)

theorem lex_lt_of_le {n n' k k' : ℕ} (h : n ≤ n') (hk : k < k') :
    (toLex (n, k) : ℕ ×ₗ ℕ) < toLex (n', k') := by
  rcases Nat.lt_or_eq_of_le h with hlt | rfl
  · exact lex_lt_of_fst hlt
  · exact Prod.Lex.toLex_lt_toLex.mpr (.inr ⟨rfl, hk⟩)

/-- **Each step of a consumer that is behind** brings it closer to a higher cursor. -/
theorem consumerStep_closer {b : Barrier} {pc pc' : ConsumerPc} {act : ConsumerAct}
    {es : List (Event E)} (hs : consumerStep R b c m pc act = some (m', pc', es))
    (hLimit : ∀ limit, act = .pollTake limit → 0 < limit)
    (hOk : pc.Ok R T producerBarrier a c) (hRep : Represents R producerBarrier m a)
    (hCovers : Covers T producerBarrier (T.stage c) b)
    (hLap : Lap R.size a.published (a.cursor c))
    (hPassed : a.Passed T (T.stage c) (a.cursor c + 1))
    (hLast : ∀ t ∈ a.published, t ≤ a.cursor c + R.size) (hMax : a.cursor c < i64Max)
    (hOpen : m.shutdownAtSequence ≠ a.cursor c + 1) :
    a.cursor c < m'.consumerCursors c ∨ m'.consumerCursors c = a.cursor c ∧
      pc'.distance R T (T.stage c) (a.cursor c) ≤ pc.distance R T (T.stage c) (a.cursor c) ∧
      (act.serves = true →
        pc'.distance R T (T.stage c) (a.cursor c) < pc.distance R T (T.stage c) (a.cursor c)) := by
  have hCursor : m.consumerCursors c = a.cursor c := (hRep.cursor c).symm
  have hLap' : Lap R.size a.published (a.cursor c + 1 - 1) := by rwa [Int.add_sub_cancel]
  have hStart := hCovers.fresh hRep (q := a.cursor c + 1) (by omega)
  -- a step that lowers the distance lowers it for whoever takes it
  have hLess : ∀ {pc'' : ConsumerPc}, pc''.distance R T (T.stage c) (a.cursor c) <
      pc.distance R T (T.stage c) (a.cursor c) →
      pc''.distance R T (T.stage c) (a.cursor c) ≤ pc.distance R T (T.stage c) (a.cursor c) ∧
        (act.serves = true → pc''.distance R T (T.stage c) (a.cursor c) <
          pc.distance R T (T.stage c) (a.cursor c)) := fun h => ⟨le_of_lt h, fun _ => h⟩
  unfold consumerStep at hs
  split at hs
  · rename_i q g
    obtain ⟨rfl, hSound⟩ := hOk
    obtain ⟨-, hAnswer⟩ := hSound.step hRep fun _ => hLap'
    split at hs
    · rename_i g' hg
      cases hs
      refine .inr ⟨hCursor, hLess ?_⟩
      refine lex_lt_of_le ?_ (hSound.remaining_lt hLast hg)
      by_cases hFresh : g.Fresh R T (T.stage c) (a.cursor c + 1)
      · rw [if_pos hFresh, if_pos ((hFresh.step hSound hRep (fun _ => hLap') hPassed).1 g' hg)]
      · rw [if_neg hFresh]
        split <;> omega
    · rename_i v hg
      by_cases hFresh : g.Fresh R T (T.stage c) (a.cursor c + 1)
      · have hle := (hFresh.step hSound hRep (fun _ => hLap') hPassed).2 v hg
        rw [if_neg (by omega)] at hs
        cases hs
        refine .inr ⟨hCursor, hLess ?_⟩
        simp only [ConsumerPc.distance, if_pos hFresh]
        exact lex_lt_of_fst (by omega)
      · split at hs <;> cases hs
        · refine .inr ⟨hCursor, hLess ?_⟩
          simp only [ConsumerPc.distance, if_neg hFresh]
          exact lex_lt_of_fst (by omega)
        · refine .inr ⟨hCursor, hLess ?_⟩
          simp only [ConsumerPc.distance, if_neg hFresh]
          exact lex_lt_of_fst (by omega)
  · rename_i q
    obtain rfl : q = a.cursor c + 1 := hOk
    rw [if_neg hOpen] at hs
    cases hs
    refine .inr ⟨hCursor, hLess ?_⟩
    simp only [ConsumerPc.distance, if_pos hStart]
    exact lex_lt_of_fst (by omega)
  · rename_i q v
    obtain ⟨hlo, hhi, hBehind⟩ := hOk
    split at hs <;> cases hs
    · refine .inr ⟨hCursor, hLess ?_⟩
      exact lex_lt_of_le (le_refl _) (by omega)
    · refine .inl ?_
      show a.cursor c < Function.update m.consumerCursors c (q - 1) c
      rw [Function.update_self]
      omega
  · rename_i q v
    obtain ⟨hlo, hhi⟩ := hOk
    cases hs
    refine .inr ⟨hCursor, hLess ?_⟩
    exact lex_lt_of_le (le_refl _) (by omega)
  · rename_i last
    cases hs
    refine .inr ⟨hCursor, hLess ?_⟩
    exact lex_lt_of_fst (by rw [if_pos (by decide)]; omega)
  · rename_i last limit
    cases hs
    refine .inr ⟨hCursor, hLess ?_⟩
    exact lex_lt_of_fst (by rw [if_pos (hLimit limit rfl)]; omega)
  · rename_i at_ limit
    have hAt : at_ = a.cursor c := hOk
    rw [hAt] at hs
    dsimp only at hs
    rw [if_neg (Ne.symm hOpen)] at hs
    cases hs
    refine .inr ⟨hCursor, hLess ?_⟩
    refine lex_lt_of_fst ?_
    by_cases hPositive : 0 < limit
    · rw [if_pos ⟨hPositive, hStart⟩, if_pos hPositive]
      omega
    · rw [if_neg (fun h => hPositive h.1), if_neg hPositive]
      omega
  · rename_i at_ limit g
    obtain ⟨rfl, hSound⟩ := hOk
    dsimp only at hs
    split at hs
    · rename_i g' hg
      cases hs
      refine .inr ⟨hCursor, hLess ?_⟩
      refine lex_lt_of_le ?_ (hSound.remaining_lt hLast hg)
      by_cases hFresh : 0 < limit ∧ g.Fresh R T (T.stage c) (a.cursor c + 1)
      · rw [if_pos hFresh, if_pos ⟨hFresh.1,
          (hFresh.2.step hSound hRep (fun _ => hLap') hPassed).1 g' hg⟩]
      · rw [if_neg hFresh]
        split <;> omega
    · rename_i v hg
      by_cases hFresh : 0 < limit ∧ g.Fresh R T (T.stage c) (a.cursor c + 1)
      · have hle := (hFresh.2.step hSound hRep (fun _ => hLap') hPassed).2 v hg
        rw [if_neg (by omega)] at hs
        cases hs
        refine .inr ⟨hCursor, hLess ?_⟩
        have hSome : a.cursor c < min v (saturatingAddUnsigned (a.cursor c) limit) := by
          rw [saturatingAddUnsigned]
          omega
        simp only [ConsumerPc.distance, if_pos hFresh, if_pos hSome]
        exact lex_lt_of_fst (by omega)
      · split at hs <;> cases hs
        · refine .inr ⟨hCursor, hLess ?_⟩
          simp only [ConsumerPc.distance, if_neg hFresh]
          exact lex_lt_of_fst (by omega)
        · refine .inr ⟨hCursor, hLess ?_⟩
          simp only [ConsumerPc.distance, if_neg hFresh]
          refine lex_lt_of_fst ?_
          split <;> omega
  · rename_i q v
    split at hs <;> cases hs
    · exact .inr ⟨hCursor, le_refl _, fun h => (by cases h)⟩
    · exact .inr ⟨hCursor, le_refl _, fun h => (by cases h)⟩
  · rename_i q v
    cases hs
    show a.cursor c < Function.update m.consumerCursors c v c ∨
      Function.update m.consumerCursors c v c = a.cursor c ∧ _
    rw [Function.update_self]
    rcases lt_or_ge (a.cursor c) v with hlt | hge
    · exact .inl hlt
    · -- an empty guard leaves the cursor where it is
      have hOk' : a.cursor c < q ∧ q ≤ v + 1 := hOk
      refine .inr ⟨by omega, hLess ?_⟩
      simp only [ConsumerPc.distance, if_neg (not_lt.mpr hge)]
      exact lex_lt_of_fst (by omega)
  · cases hs

-- ---------------------------------------------------------------------------
-- Executions
-- ---------------------------------------------------------------------------

/-- An execution of a single-producer disruptor. -/
abbrev UniExecution (R : RingSize) (w : Wiring) (factory : Nat → E) :=
  Execution (UniSystem.step R w) UniAct.InRange (UniSystem.init R w factory)

/-- An execution of a multi-producer disruptor. -/
abbrev MultiExecution (R : MultiRingSize) (w : Wiring) (factory : Nat → E) :=
  Execution (MultiSystem.step R.toRingSize w) MultiAct.InRange
    (MultiSystem.init R.toRingSize w factory)

/-- A step of consumer `c` towards the next event. -/
def Act.serves (c : Nat) : Act A → Bool
  | .consumer c' act => c' == c && act.serves
  | .producer _ => false

variable {step : System P E → Act A → Option (System P E × List (Event E))} {ok : Act A → Prop}
  {s₀ : System P E}

/-- Consumer `c` goes on: its thread is not passed over forever, and the client of
a poller polls for events again and again, and drops the guards. -/
structure Served (x : Execution step ok s₀) (c : Nat) : Prop where
  fair : x.Fair (Act.serves c)
  limit : ∀ i limit, x.act i = some (.consumer c (.pollTake limit)) → 0 < limit

/-- Everything up to `v` has passed the level. -/
def System.Passed (T : Topology Nat) (j : Nat) (v : Int) (tr : List (Event E))
    (s : System P E) : Prop :=
  (s.pipeline NONE (publishedBy tr)).Passed T j v

theorem System.Passed.of_claimed {tr : List (Event E)} {s : System P E} {v : Int}
    (h : s.Passed T j v tr) (claimed : Int) :
    (s.pipeline claimed (publishedBy tr)).Passed T j v := by
  cases j with
  | zero => exact h
  | succ j => exact h

namespace Disruptor

variable {s s' : System P E} {tr es : List (Event E)} {act : Act A} {spec : ConsumerSpec} {v : Int}

theorem publishedBy_append : publishedBy tr ⊆ publishedBy (tr ++ es) := by
  intro t ht
  simp only [mem_publishedBy, flips_append, List.mem_append] at ht ⊢
  tauto

/-- What passed stays passed. -/
theorem passed_step (hD : Disruptor R T w producerBarrier step ok s₀) (hRun : Run step ok s₀ tr s)
    (h : s.Passed T j v tr) (hs : step s act = some (s', es)) : s'.Passed T j v (tr ++ es) := by
  obtain ⟨claimed, hC, -⟩ := hD.consistent hRun
  exact State.Passed.later h ⟨publishedBy_append, hC.cursor_mono hD.wired (hD.move hs)⟩

theorem passed_le_claimed {claimed : Int}
    (hC : s.Consistent R T producerBarrier claimed (publishedBy tr)) (hMem : c ∈ T.members)
    (h : s.Passed T (T.stage c) v tr) : v ≤ claimed := by
  have hStage := T.stage_le c hMem
  exact hC.inv.published_le v
    (hC.inv.passed_le (Nat.zero_le _) (by omega) (h.of_claimed claimed) v (le_refl v))

/-- A consumer that is behind can go on. -/
theorem serves_enabled (hD : Disruptor R T w producerBarrier step ok s₀)
    (hRun : Run step ok s₀ tr s) (hMem : c ∈ T.members) (hPassed : s.Passed T (T.stage c) v tr) :
    v ≤ s.memory.consumerCursors c ∨
      ∃ act, Act.serves c act = true ∧ ok act ∧ (step s act).isSome = true := by
  obtain ⟨spec, hSpec⟩ : ∃ spec, w.consumers[c]? = some spec :=
    ⟨_, List.getElem?_eq_getElem ((hD.wired.mem_iff c).mp hMem)⟩
  -- between calls it polls, with a guard it drops it, else it takes a step
  have hTry : ∀ act : ConsumerAct, act.serves = true →
      (consumerStep R spec.dependentBarrier c s.memory (s.consumers c) act).isSome = true →
      ∃ act, Act.serves c act = true ∧ ok act ∧ (step s act).isSome = true := by
    intro act hServes hSome
    obtain ⟨r, hr⟩ := Option.isSome_iff_exists.mp hSome
    refine ⟨.consumer c act, by simp [Act.serves, hServes], hD.ok_consumer c act, ?_⟩
    rw [hD.step_consumer, System.stepConsumer, hSpec]
    simp only [hr, Option.isSome_some]
  cases hPc : s.consumers c with
  | exited =>
    have hDrained := hD.ended hRun hMem (.inl (hD.exited hRun hSpec hPc))
    obtain ⟨claimed, hC, hClosed⟩ := hD.consistent hRun
    have hLast := hClosed hDrained.1
    have hEnd := hDrained.2
    have hLe := passed_le_claimed hC hMem hPassed
    exact .inl (by omega)
  | idle last => exact .inr (hTry .poll rfl (by rw [hPc]; rfl))
  | guard q v => exact .inr (hTry .dropGuard rfl (by rw [hPc]; rfl))
  | waitForEvents q g =>
    refine .inr (hTry .tick rfl ?_)
    rw [hPc, consumerStep]
    split
    · rfl
    · split <;> rfl
  | checkShutdown q =>
    refine .inr (hTry .tick rfl ?_)
    rw [hPc, consumerStep]
    split <;> rfl
  | batch q v =>
    refine .inr (hTry .tick rfl ?_)
    rw [hPc, consumerStep]
    split <;> rfl
  | handler q v => exact .inr (hTry .tick rfl (by rw [hPc]; rfl))
  | readShutdown at_ limit =>
    refine .inr (hTry .tick rfl ?_)
    rw [hPc, consumerStep]
    split <;> rfl
  | getAvailable at_ limit g =>
    refine .inr (hTry .tick rfl ?_)
    rw [hPc, consumerStep]
    dsimp only
    split
    · rfl
    · split <;> rfl

/-- **A served consumer gets as far as the stage before it.** -/
theorem advances (hD : Disruptor R T w producerBarrier step ok s₀) {x : Execution step ok s₀}
    (hMem : c ∈ T.members) (hServed : Served x c) {i : Nat}
    (hPassed : (x.state i).Passed T (T.stage c) v (x.trace i)) :
    ∃ j, i ≤ j ∧ v ≤ (x.state j).memory.consumerCursors c := by
  refine x.leadsTo hServed.fair (P := System.Passed T (T.stage c) v)
    (Q := fun _ s => v ≤ s.memory.consumerCursors c)
    (fun s : System P E => (toLex ((v - s.memory.consumerCursors c).toNat,
      (s.consumers c).distance R T (T.stage c) (s.memory.consumerCursors c)) : ℕ ×ₗ ℕ ×ₗ ℕ))
    (fun j hP => hD.serves_enabled (x.run j) hMem hP) (fun j act hAct hP => ?_) hPassed
  obtain ⟨hOk, hs⟩ := x.next j act hAct
  have hP' := hD.passed_step (x.run j) hP hs
  rw [← x.trace_succ] at hP'
  rcases le_or_gt v ((x.state (j + 1)).memory.consumerCursors c) with hDone | hBehind'
  · exact .inl hDone
  refine .inr ⟨hP', ?_⟩
  have hRun := x.run j
  generalize x.state j = s at hRun hP hs
  generalize x.state (j + 1) = s' at hs hBehind'
  obtain ⟨claimed, hC, hClosed⟩ := hD.consistent hRun
  have hMono := hC.cursor_mono hD.wired (hD.move hs) c hMem
  cases act with
  | producer act =>
    cases hD.move hs with
    | producer hConsumers hCursors _ =>
      rw [hConsumers, hCursors]
      exact ⟨le_refl _, fun h => (by cases h)⟩
  | consumer c' act =>
    rw [hD.step_consumer, System.stepConsumer] at hs
    split at hs
    · cases hs
    rename_i spec hSpec
    split at hs
    · cases hs
    rename_i memory pc es hConsumer
    cases hs
    dsimp only at hBehind' hMono ⊢
    rcases eq_or_ne c' c with rfl | hne
    · -- its own step
      have hle := passed_le_claimed hC hMem hP
      have hGe : -1 ≤ s.memory.consumerCursors c' := hC.inv.cursor_ge c' hMem
      have hPassed' : (s.pipeline claimed (publishedBy (x.trace j))).Passed T (T.stage c')
          (s.memory.consumerCursors c' + 1) := (hP.of_claimed claimed).mono (by omega)
      have hOpen : s.memory.shutdownAtSequence ≠ s.memory.consumerCursors c' + 1 := by
        intro hEq
        rcases eq_or_ne s.memory.shutdownAtSequence NONE with hNone | hStored
        · rw [NONE] at hNone
          omega
        · have := hClosed hStored
          omega
      have hMax := hC.claimed_le
      have hCloser := consumerStep_closer hConsumer
        (fun limit hEq => hServed.limit j limit (hEq ▸ hAct)) (hC.consumers c' hMem) hC.represents
        (hD.wired.dependentBarrier hSpec) (hC.lap hMem) hPassed' (hC.lap hMem).bounded
        (show s.memory.consumerCursors c' < i64Max by omega) hOpen
      rw [Function.update_self]
      have hServes : Act.serves c' (Act.consumer c' act : Act A) = act.serves := by
        simp [Act.serves]
      rw [hServes]
      rcases hCloser with hHigher | ⟨hSame, hLe, hLt⟩
      · -- a higher cursor
        have hHigher' : s.memory.consumerCursors c' < memory.consumerCursors c' := hHigher
        have hLess : ∀ d d' : ℕ ×ₗ ℕ,
            (toLex ((v - memory.consumerCursors c').toNat, d) : ℕ ×ₗ ℕ ×ₗ ℕ) <
              toLex ((v - s.memory.consumerCursors c').toNat, d') := fun d d' =>
          Prod.Lex.toLex_lt_toLex.mpr (.inl (by omega))
        exact ⟨le_of_lt (hLess _ _), fun _ => hLess _ _⟩
      · have hSame' : memory.consumerCursors c' = s.memory.consumerCursors c' := hSame
        rw [hSame']
        refine ⟨?_, fun h => ?_⟩
        · exact Prod.Lex.toLex_le_toLex.mpr (.inr ⟨rfl, hLe⟩)
        · exact Prod.Lex.toLex_lt_toLex.mpr (.inr ⟨rfl, hLt h⟩)
    · have hCursor := (consumerStep_cases hConsumer).cursor_ne hne.symm
      rw [Function.update_of_ne hne.symm, hCursor]
      exact ⟨le_refl _, fun h => by simp [Act.serves, hne] at h⟩

end Disruptor

end Calvera
