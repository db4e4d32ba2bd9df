import Calvera.Lib.ReleaseAcquire
import Calvera.Protocol.Pipeline

/-!
# Protocol — who accesses a slot after whom

The rules of the pipeline say which sequences a thread may access: a producer
writes what it has claimed, a consumer reads what it has been granted. Here
they meet happens-before. The accesses of level `0` are the writes, those of
level `j + 1` the reads of stage `j`, as for `State.Passed`: once a sequence has
passed level `j`, it is not accessed at this level or below any more
(`Allowed.lt_of_passed`). Knowing the accesses up to a passed level is therefore
knowledge that does not grow old (`Knows.extend`, `Done.extend`).

Results: an access conflicts with none that its thread does not know of,

* `Logged.read`  — when a consumer knows the writes up to its grant;
* `Logged.write` — when a producer knows everything up to one round before its
  claim, and the claim is its own.
-/

namespace Calvera.Protocol

open Calvera.Lib Calvera.Lib.ReleaseAcquire

universe u

variable {C : Type u} {Θ : Type} {T : Topology C} {consumerOf : Θ → Option C} {size : Nat}
  {a a' : State C} {log : List (Access Θ Int)} {known known' : Finset Nat} {θ : Θ} {c : C}
  {j : Nat} {t v : Int} {access : Access Θ Int}

/-- Producers write at level `0`, stage `j` reads at level `j + 1`. -/
def level (T : Topology C) (consumerOf : Θ → Option C) (θ : Θ) : Nat :=
  match consumerOf θ with
  | none => 0
  | some c => T.stage c + 1

theorem level_reader (h : consumerOf θ = some c) : level T consumerOf θ = T.stage c + 1 := by
  simp [level, h]

theorem level_writer (h : consumerOf θ = none) : level T consumerOf θ = 0 := by
  simp [level, h]

/-- The pipeline lets the thread access a sequence. -/
def Allowed (T : Topology C) (consumerOf : Θ → Option C) (a : State C) (θ : Θ) (t : Int) : Prop :=
  match consumerOf θ with
  | none => t ∉ a.published ∧ t ≤ a.claimed
  | some c => c ∈ T.members ∧ a.cursor c < t ∧ t ≤ a.granted c

theorem Allowed.writer (h : Allowed T consumerOf a θ t) (hWriter : consumerOf θ = none) :
    t ∉ a.published ∧ t ≤ a.claimed := by
  simpa [Allowed, hWriter] using h

theorem Allowed.reader (h : Allowed T consumerOf a θ t) (hReader : consumerOf θ = some c) :
    c ∈ T.members ∧ a.cursor c < t ∧ t ≤ a.granted c := by
  simpa [Allowed, hReader] using h

/-- **What has passed a level is not accessed there or below any more.** -/
theorem Allowed.lt_of_passed (h : Allowed T consumerOf a θ t) (hInv : Inv T size a)
    (hPassed : a.Passed T j v) (hj : j ≤ T.last + 1) (hLevel : level T consumerOf θ ≤ j) : v < t := by
  have hHere := hInv.passed_le hLevel hj hPassed
  cases hReader : consumerOf θ with
  | none =>
    rw [level_writer hReader] at hHere
    by_contra hle
    exact (h.writer hReader).1 (hHere t (Int.not_lt.mp hle))
  | some c =>
    rw [level_reader hReader] at hHere
    obtain ⟨hMem, hlt, -⟩ := h.reader hReader
    exact lt_of_le_of_lt (hHere c hMem rfl) hlt

-- ---------------------------------------------------------------------------
-- Knowledge
-- ---------------------------------------------------------------------------

/-- All accesses up to level `j` of sequences up to `v` are known. -/
def Knows (T : Topology C) (consumerOf : Θ → Option C) (log : List (Access Θ Int))
    (known : Finset Nat) (j : Nat) (v : Int) : Prop :=
  Informed log known fun b => level T consumerOf b.thread ≤ j ∧ b.target ≤ v

/-- What consumer `c` knows when it is done with the sequences up to `v`: the
accesses before its stage, and its own. -/
def Done (T : Topology C) (consumerOf : Θ → Option C) (log : List (Access Θ Int))
    (known : Finset Nat) (c : C) (v : Int) : Prop :=
  Informed log known fun b =>
    b.target ≤ v ∧ (level T consumerOf b.thread ≤ T.stage c ∨ consumerOf b.thread = some c)

theorem Knows.mono (h : Knows T consumerOf log known j v) (hKnown : known ⊆ known') {v' : Int}
    (hle : v' ≤ v) : Knows T consumerOf log known' j v' :=
  Informed.mono h hKnown fun _ hb => ⟨hb.1, hb.2.trans hle⟩

/-- Knowledge of what has passed stays complete. -/
theorem Knows.extend (h : Knows T consumerOf log known j v) (hInv : Inv T size a)
    (hPassed : a.Passed T j v) (hj : j ≤ T.last + 1)
    (hAllowed : Allowed T consumerOf a access.thread access.target) :
    Knows T consumerOf (log ++ [access]) known j v := by
  refine Informed.extend h ?_
  rintro ⟨hLevel, hle⟩
  have := hAllowed.lt_of_passed hInv hPassed hj hLevel
  omega

theorem Done.extend (h : Done T consumerOf log known c v) (hInv : Inv T size a) (hMem : c ∈ T.members)
    (hle : v ≤ a.cursor c) (hAllowed : Allowed T consumerOf a access.thread access.target) :
    Done T consumerOf (log ++ [access]) known c v := by
  refine Informed.extend h ?_
  rintro ⟨hTarget, hLevel | hReader⟩
  · have hPassed := (hInv.granted_passed c hMem).mono (hle.trans (hInv.cursor_le_granted c hMem))
    have := hAllowed.lt_of_passed hInv hPassed (by have := T.stage_le c hMem; omega) hLevel
    omega
  · have := (hAllowed.reader hReader).2.1
    omega

/-- A consumer that knows what came before its stage is done with its grant. -/
theorem Knows.done (h : Knows T consumerOf log known (T.stage c) v)
    (hOwn : Informed log known fun b => consumerOf b.thread = some c) :
    Done T consumerOf log known c v := by
  intro i b hi hb
  obtain ⟨hTarget, hLevel | hReader⟩ := hb
  · exact h i b hi ⟨hLevel, hTarget⟩
  · exact hOwn i b hi hReader

/-- What all consumers of a stage are done with has been accessed by the stage
and before it only. -/
theorem Knows.of_done (hj : j ≤ T.last)
    (h : ∀ c ∈ T.members, T.stage c = j → Done T consumerOf log known c v)
    (hReaders : ∀ b ∈ log, ∀ c, consumerOf b.thread = some c → c ∈ T.members) :
    Knows T consumerOf log known (j + 1) v := by
  rintro i b hi ⟨hLevel, hTarget⟩
  cases hReader : consumerOf b.thread with
  | none =>
    obtain ⟨c, hMem, rfl⟩ := T.occupied j hj
    exact h c hMem rfl i b hi ⟨hTarget, .inl (by rw [level_writer hReader]; exact Nat.zero_le _)⟩
  | some c' =>
    rw [level_reader hReader] at hLevel
    have hMem := hReaders b (List.mem_of_getElem? hi) c' hReader
    rcases Nat.lt_or_eq_of_le (Nat.le_of_succ_le_succ hLevel) with hlt | hEq
    · obtain ⟨c, hMem', rfl⟩ := T.occupied j hj
      exact h c hMem' rfl i b hi ⟨hTarget, .inl (by rw [level_reader hReader]; exact hlt)⟩
    · exact h c' hMem hEq i b hi ⟨hTarget, .inr hReader⟩

-- ---------------------------------------------------------------------------
-- The log
-- ---------------------------------------------------------------------------

/-- The accesses so far were allowed when they happened. -/
structure Logged (T : Topology C) (consumerOf : Θ → Option C) (size : Nat) (a : State C)
    (log : List (Access Θ Int)) : Prop where
  isWrite : ∀ b ∈ log, b.isWrite = true ↔ consumerOf b.thread = none
  bounded : ∀ b ∈ log, ∀ c ∈ T.members, b.target ≤ a.cursor c + size
  readers : ∀ b ∈ log, ∀ c, consumerOf b.thread = some c → c ∈ T.members ∧ b.target ∈ a.published

theorem Logged.nil : Logged T consumerOf size a [] where
  isWrite _ hb := absurd hb List.not_mem_nil
  bounded _ hb := absurd hb List.not_mem_nil
  readers _ hb := absurd hb List.not_mem_nil

theorem Logged.later (h : Logged T consumerOf size a log) (hLater : a.Later T a') :
    Logged T consumerOf size a' log where
  isWrite := h.isWrite
  bounded b hb c hMem := (h.bounded b hb c hMem).trans (by have := hLater.cursor c hMem; omega)
  readers b hb c hReader :=
    ⟨(h.readers b hb c hReader).1, hLater.published (h.readers b hb c hReader).2⟩

/-- One more access. -/
theorem Logged.snoc (h : Logged T consumerOf size a log) (hInv : Inv T size a)
    (hAllowed : Allowed T consumerOf a access.thread access.target)
    (hWrite : access.isWrite = true ↔ consumerOf access.thread = none) :
    Logged T consumerOf size a (log ++ [access]) := by
  refine ⟨fun b hb => ?_, fun b hb c hMem => ?_, fun b hb c hReader => ?_⟩ <;>
    rcases List.mem_append.mp hb with hb | hb
  · exact h.isWrite b hb
  · exact List.mem_singleton.mp hb ▸ hWrite
  · exact h.bounded b hb c hMem
  · obtain rfl := List.mem_singleton.mp hb
    have := hInv.claimed_le hMem
    cases hReader : consumerOf b.thread with
    | none =>
      have := (hAllowed.writer hReader).2
      omega
    | some c' =>
      obtain ⟨hMem', -, hle⟩ := hAllowed.reader hReader
      have := hInv.granted_le_claimed hMem'
      omega
  · exact h.readers b hb c hReader
  · obtain rfl := List.mem_singleton.mp hb
    obtain ⟨hMem, -, hle⟩ := hAllowed.reader hReader
    exact ⟨hMem, hInv.granted_published hMem hle⟩

/-- Thread `θ` added no access to the log, or one that the pipeline allows. -/
def LogExtends (T : Topology C) (consumerOf : Θ → Option C) (a : State C) (θ : Θ)
    (log log' : List (Access Θ Int)) : Prop :=
  log' = log ∨
    ∃ access, access.thread = θ ∧ Allowed T consumerOf a θ access.target ∧ log' = log ++ [access]

namespace LogExtends

variable {log' : List (Access Θ Int)} {p : Access Θ Int → Prop}

theorem mem (h : LogExtends T consumerOf a θ log log') {b : Access Θ Int} (hb : b ∈ log') :
    b ∈ log ∨ b.thread = θ ∧ Allowed T consumerOf a θ b.target := by
  rcases h with rfl | ⟨access, hThread, hAllowed, rfl⟩
  · exact .inl hb
  · rcases List.mem_append.mp hb with hb | hb
    · exact .inl hb
    · rw [List.mem_singleton.mp hb]
      exact .inr ⟨hThread, hAllowed⟩

/-- What is known of the accesses of others. -/
theorem informed (h : LogExtends T consumerOf a θ log log') (hKnown : Informed log known p)
    (hp : ∀ b, p b → b.thread ≠ θ) : Informed log' known p := by
  rcases h with rfl | ⟨access, hThread, -, rfl⟩
  · exact hKnown
  · exact hKnown.extend fun hb => hp access hb hThread

/-- What passed a level stays known. -/
theorem knows (h : LogExtends T consumerOf a θ log log')
    (hKnows : Knows T consumerOf log known j v) (hInv : Inv T size a) (hPassed : a.Passed T j v)
    (hj : j ≤ T.last + 1) : Knows T consumerOf log' known j v := by
  rcases h with rfl | ⟨access, rfl, hAllowed, rfl⟩
  · exact hKnows
  · exact hKnows.extend hInv hPassed hj hAllowed

end LogExtends

/-- Every access is at one of the levels. -/
theorem Logged.level_le (h : Logged T consumerOf size a log) {b : Access Θ Int} (hb : b ∈ log) :
    level T consumerOf b.thread ≤ T.last + 1 := by
  cases hReader : consumerOf b.thread with
  | none =>
    rw [level_writer hReader]
    exact Nat.zero_le _
  | some c =>
    rw [level_reader hReader]
    exact Nat.succ_le_succ (T.stage_le c (h.readers b hb c hReader).1)

/-- **Reading.** A consumer that knows the writes up to its grant knows all
writes to the slot it reads. -/
theorem Logged.read (h : Logged T consumerOf size a log) (hSize : 0 < size)
    (hAllowed : Allowed T consumerOf a θ t) (hReader : consumerOf θ = some c)
    (hKnows : Knows T consumerOf log known (T.stage c) (a.granted c)) :
    Informed log known fun b => slotOf size b.target = slotOf size t ∧ b.isWrite = true := by
  rintro i b hi ⟨hSlot, hWrite⟩
  have hb := List.mem_of_getElem? hi
  obtain ⟨hMem, hlt, hle⟩ := hAllowed.reader hReader
  have hBound := h.bounded b hb c hMem
  -- the slot was not written for a later round yet
  have hTarget : b.target ≤ t := by
    by_contra hgt
    have : b.target = t := slotOf_inj hSize (by omega) (by omega) hSlot
    omega
  refine hKnows i b hi ⟨?_, hTarget.trans hle⟩
  rw [level_writer ((h.isWrite b hb).mp hWrite)]
  exact Nat.zero_le _

/-- **Writing.** A producer that knows everything up to one round before its
claim knows all accesses to the slot it writes. -/
theorem Logged.write (h : Logged T consumerOf size a log) (hInv : Inv T size a) (hSize : 0 < size)
    (hAllowed : Allowed T consumerOf a θ t) (hWriter : consumerOf θ = none)
    (hKnows : Knows T consumerOf log known (T.last + 1) v) (hle : t ≤ v + size)
    (hOwn : Informed log known fun b => consumerOf b.thread = none ∧ b.target = t) :
    Informed log known fun b => slotOf size b.target = slotOf size t := by
  intro i b hi hSlot
  have hb := List.mem_of_getElem? hi
  obtain ⟨hFresh, -⟩ := hAllowed.writer hWriter
  rcases Int.lt_trichotomy b.target t with hlt | hEq | hgt
  · -- an earlier round
    refine hKnows i b hi ⟨h.level_le hb, ?_⟩
    by_contra hNear
    have : b.target = t := slotOf_inj hSize (by omega) (by omega) hSlot
    omega
  · refine hOwn i b hi ⟨?_, hEq⟩
    cases hReader : consumerOf b.thread with
    | none => rfl
    | some c => exact absurd (hEq ▸ (h.readers b hb c hReader).2) hFresh
  · -- a later round is not claimed yet
    obtain ⟨c, hMem⟩ := T.nonempty
    have hBound := h.bounded b hb c hMem
    have hAhead := hInv.granted_lt hMem hFresh
    have hBehind := hInv.cursor_le_granted c hMem
    have : b.target = t := slotOf_inj hSize (by omega) (by omega) hSlot
    omega

end Calvera.Protocol
