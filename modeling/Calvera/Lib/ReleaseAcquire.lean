import Mathlib.Data.Finset.Basic
import Mathlib.Logic.Function.Basic
import Mathlib.Tactic.Common

/-!
# Release and acquire

Threads share atomic locations and plain data. The writes to an atomic location
are ordered; a relaxed load returns any of them that is not older than what the
thread has seen of that location before. Plain accesses are ordered by **happens
before** only, which the atomics pass on:

* a release store takes along every access that happens before it, a relaxed one
  those before the thread's last release fence;
* a read-modify-write continues what the write it replaces took along;
* what a relaxed load has found happens before the thread's next step only after
  an acquire fence.

Two conflicting plain accesses that are not ordered are a data race. Each access
records what happened before it, so `Ordered` says there is none.

A new write is always the newest of its location: this fits locations that one
thread writes, and locations that are written by read-modify-writes only. Loads
are less constrained here than by C11, where coherence also counts what a thread
has learned from others.

Results:

* `WellFormed.load`, `.perform` — what a thread has seen, its next acquire fence
  makes known.
* `Grows.load`, `.perform`      — writes are added, views only become newer.
* `Informed.extend`             — more accesses, none that concerns what is known.
* `Ordered.snoc`                — one more access, after all it conflicts with.
-/

namespace Calvera.Lib.ReleaseAcquire

universe u v

variable {Θ : Type} {L : Type u} {V : L → Type v} {N : Type}

-- ---------------------------------------------------------------------------
-- Histories
-- ---------------------------------------------------------------------------

/-- A write to an atomic location, and the accesses that it takes along. -/
structure Message (α : Type v) where
  value : α
  released : Finset Nat

/-- The writes to one location; the first one initializes it. -/
structure History (α : Type v) where
  older : List (Message α)
  newest : Message α

namespace History

variable {α : Type v} (h : History α) {m m' : Message α} {k : Nat}

/-- All writes, oldest first. -/
def messages : List (Message α) := h.older ++ [h.newest]

/-- The number of the newest write. -/
def last : Nat := h.older.length

/-- One more write. -/
def push (m : Message α) : History α := ⟨h.messages, m⟩

@[simp] theorem newest_push : (h.push m).newest = m := rfl

@[simp] theorem last_push : (h.push m).last = h.last + 1 := by
  simp [last, push, messages]

@[simp] theorem getElem?_last : h.messages[h.last]? = some h.newest := by
  simp [messages, last]

theorem le_last (hm : h.messages[k]? = some m) : k ≤ h.last := by
  obtain ⟨hlt, -⟩ := List.getElem?_eq_some_iff.mp hm
  simpa [messages, last, Nat.lt_succ_iff] using hlt

theorem exists_message (hk : k ≤ h.last) : ∃ m, h.messages[k]? = some m := by
  have hlt : k < h.messages.length := by simpa [messages, last, Nat.lt_succ_iff] using hk
  exact ⟨_, List.getElem?_eq_getElem hlt⟩

/-- A push adds the newest write and keeps the others. -/
theorem getElem?_push :
    (h.push m).messages[k]? = if k = h.last + 1 then some m else h.messages[k]? := by
  have hLength : h.messages.length = h.last + 1 := by simp [messages, last]
  show (h.messages ++ [m])[k]? = _
  rcases Nat.lt_trichotomy k (h.last + 1) with hlt | rfl | hgt
  · rw [List.getElem?_append_left (by omega), if_neg (by omega)]
  · rw [if_pos rfl, ← hLength, List.getElem?_concat_length]
  · rw [if_neg (by omega), List.getElem?_eq_none (by simp; omega),
      List.getElem?_eq_none (by omega)]

end History

-- ---------------------------------------------------------------------------
-- The machine
-- ---------------------------------------------------------------------------

/-- What a thread knows. -/
structure View (L : Type u) where
  /-- The newest write of each location it has seen. -/
  seen : L → Nat
  /-- The accesses that happen before its next step. -/
  current : Finset Nat
  /-- The same, after its next acquire fence. -/
  acquired : Finset Nat
  /-- The accesses before its last release fence. -/
  released : Finset Nat

/-- What a store takes along. -/
def View.releases (view : View L) (release : Bool) : Finset Nat :=
  if release then view.current else view.released

/-- A plain access, and what happened before it. -/
structure Access (Θ N : Type) where
  thread : Θ
  target : N
  isWrite : Bool
  before : Finset Nat

/-- Atomic locations with all their writes, and the plain accesses so far. -/
structure Machine (Θ : Type) (L : Type u) (V : L → Type v) (N : Type) where
  history : (x : L) → History (V x)
  views : Θ → View L
  log : List (Access Θ N)

/-- What a thread does, loads apart. -/
inductive Op (L : Type u) (V : L → Type v) (N : Type) where
  | store (x : L) (value : V x) (release : Bool)
  /-- A read-modify-write; it replaces the newest write. -/
  | exchange (x : L) (value : V x) (acquire release : Bool)
  | acquireFence
  | releaseFence
  | access (target : N) (isWrite : Bool)

namespace Machine

/-- Every location has its first write, and nothing is known. -/
def init (value : (x : L) → V x) : Machine Θ L V N where
  history x := ⟨[], ⟨value x, ∅⟩⟩
  views _ := ⟨fun _ => 0, ∅, ∅, ∅⟩
  log := []

/-- The newest value of a location. -/
def newest (M : Machine Θ L V N) (x : L) : V x := (M.history x).newest.value

/-- The value a thread has seen last. -/
def value (M : Machine Θ L V N) (θ : Θ) (x : L) : V x :=
  match (M.history x).messages[(M.views θ).seen x]? with
  | some message => message.value
  | none => M.newest x

variable [DecidableEq Θ]

/-- The view of one thread changes. -/
def setView (M : Machine Θ L V N) (θ : Θ) (view : View L) : Machine Θ L V N :=
  { M with views := Function.update M.views θ view }

variable [DecidableEq L]

/-- A relaxed load that finds write number `k`. -/
def load (M : Machine Θ L V N) (θ : Θ) (x : L) (k : Nat) : Option (Machine Θ L V N) :=
  match (M.history x).messages[k]? with
  | none => none
  | some message =>
    let view := M.views θ
    if view.seen x ≤ k then
      some (M.setView θ { view with
        seen := Function.update view.seen x k
        acquired := view.acquired ∪ message.released })
    else none

/-- One more write to a location, seen by its thread. -/
def write (M : Machine Θ L V N) (θ : Θ) (x : L) (message : Message (V x)) : Machine Θ L V N :=
  let view := M.views θ
  { M.setView θ { view with seen := Function.update view.seen x ((M.history x).last + 1) } with
    history := Function.update M.history x ((M.history x).push message) }

/-- Perform an operation; a read-modify-write needs the newest write in view. -/
def perform (M : Machine Θ L V N) (θ : Θ) : Op L V N → Option (Machine Θ L V N)
  | .store x value release => some (M.write θ x ⟨value, (M.views θ).releases release⟩)
  | .exchange x value acquire release =>
    let view := M.views θ
    let found := (M.history x).newest.released
    if view.seen x = (M.history x).last then
      let view' := { view with
        current := if acquire then view.current ∪ found else view.current
        acquired := view.acquired ∪ found }
      some ((M.setView θ view').write θ x ⟨value, found ∪ view'.releases release⟩)
    else none
  | .acquireFence =>
    let view := M.views θ
    some (M.setView θ { view with current := view.acquired })
  | .releaseFence =>
    let view := M.views θ
    some (M.setView θ { view with released := view.current })
  | .access target isWrite =>
    let view := M.views θ
    some { M.setView θ { view with
        current := insert M.log.length view.current
        acquired := insert M.log.length view.acquired } with
      log := M.log ++ [⟨θ, target, isWrite, view.current⟩] }

/-- Perform an operation, if there is one. -/
def perform? (M : Machine Θ L V N) (θ : Θ) : Option (Op L V N) → Option (Machine Θ L V N)
  | none => some M
  | some op => M.perform θ op

end Machine

-- ---------------------------------------------------------------------------
-- What is known
-- ---------------------------------------------------------------------------

variable {log log' : List (Access Θ N)} {known known' : Finset Nat} {p p' : Access Θ N → Prop}
  {a : Access Θ N}

/-- All accesses with the property are known. -/
def Informed (log : List (Access Θ N)) (known : Finset Nat) (p : Access Θ N → Prop) : Prop :=
  ∀ i a, log[i]? = some a → p a → i ∈ known

theorem Informed.mono (h : Informed log known p) (hKnown : known ⊆ known')
    (hp : ∀ a, p' a → p a) : Informed log known' p' :=
  fun i a hi ha => hKnown (h i a hi (hp a ha))

/-- An access that does not concern what is known. -/
theorem Informed.extend (h : Informed log known p) (ha : ¬ p a) :
    Informed (log ++ [a]) known p := by
  intro i b hi hb
  rw [List.getElem?_append] at hi
  split at hi
  · exact h i b hi hb
  · rw [List.getElem?_singleton] at hi
    split at hi
    · exact absurd (Option.some.inj hi ▸ hb) ha
    · cases hi

/-- The thread itself knows its access. -/
theorem Informed.snoc (h : Informed log known p) :
    Informed (log ++ [a]) (insert log.length known) p := by
  intro i b hi hb
  rw [List.getElem?_append] at hi
  split at hi
  · exact Finset.mem_insert_of_mem (h i b hi hb)
  · rw [List.getElem?_singleton] at hi
    split at hi
    · exact Finset.mem_insert.mpr (.inl (by omega))
    · cases hi

/-- No two conflicting accesses are a data race. -/
def Ordered (same : N → N → Prop) (log : List (Access Θ N)) : Prop :=
  ∀ i j (a b : Access Θ N), i < j → log[i]? = some a → log[j]? = some b → same a.target b.target →
    (a.isWrite = true ∨ b.isWrite = true) → i ∈ b.before

theorem Ordered.nil (same : N → N → Prop) : Ordered same ([] : List (Access Θ N)) := by
  intro i j a b _ hi
  simp at hi

/-- **One more access**, that happens after all it conflicts with. -/
theorem Ordered.snoc {same : N → N → Prop} (h : Ordered same log)
    (ha : Informed log a.before fun b =>
      same b.target a.target ∧ (b.isWrite = true ∨ a.isWrite = true)) :
    Ordered same (log ++ [a]) := by
  intro i j b b' hlt hi hj hSame hWrite
  have hLength := (List.getElem?_eq_some_iff.mp hj).1
  rw [List.length_append, List.length_singleton] at hLength
  rw [List.getElem?_append_left (by omega)] at hi
  rw [List.getElem?_append] at hj
  split at hj
  · exact h i j b b' hlt hi hj hSame hWrite
  · rw [List.getElem?_singleton] at hj
    split at hj
    · obtain rfl := Option.some.inj hj
      exact ha i b hi ⟨hSame, hWrite⟩
    · cases hj

-- ---------------------------------------------------------------------------
-- Well-formed machines
-- ---------------------------------------------------------------------------

/-- What happened before a fence happened before what comes after it, and what a
thread has seen, its next acquire fence makes known. -/
structure WellFormed (M : Machine Θ L V N) : Prop where
  seen_le : ∀ θ x, (M.views θ).seen x ≤ (M.history x).last
  released : ∀ θ, (M.views θ).released ⊆ (M.views θ).current
  current : ∀ θ, (M.views θ).current ⊆ (M.views θ).acquired
  found : ∀ θ x message, (M.history x).messages[(M.views θ).seen x]? = some message →
    message.released ⊆ (M.views θ).acquired
  own : ∀ θ, Informed M.log (M.views θ).current fun a => a.thread = θ

theorem WellFormed.init (value : (x : L) → V x) :
    WellFormed (Machine.init value : Machine Θ L V N) where
  seen_le _ _ := Nat.zero_le _
  released _ := Finset.Subset.refl _
  current _ := Finset.Subset.refl _
  found θ x message hm := by
    obtain rfl : (⟨value x, ∅⟩ : Message (V x)) = message := Option.some.inj hm
    exact Finset.empty_subset _
  own _ i a hi := by simp [Machine.init] at hi

namespace Machine

variable {M M' : Machine Θ L V N} {θ θ' : Θ} {x : L} {k : Nat}

/-- A thread sees some write of each location. -/
theorem exists_seen (h : WellFormed M) (θ : Θ) (x : L) :
    ∃ message, (M.history x).messages[(M.views θ).seen x]? = some message ∧
      M.value θ x = message.value := by
  obtain ⟨message, hm⟩ := (M.history x).exists_message (h.seen_le θ x)
  refine ⟨message, hm, ?_⟩
  rw [value, hm]

/-- A thread that sees the newest write sees the newest value. -/
theorem value_eq_newest (h : (M.views θ).seen x = (M.history x).last) : M.value θ x = M.newest x := by
  rw [value, h, History.getElem?_last]
  rfl

section SetView

variable [DecidableEq Θ]

@[simp] theorem setView_history (view : View L) : (M.setView θ view).history = M.history := rfl

@[simp] theorem setView_log (view : View L) : (M.setView θ view).log = M.log := rfl

@[simp] theorem setView_self (view : View L) : (M.setView θ view).views θ = view := by
  simp [setView]

@[simp] theorem setView_ne (view : View L) (hne : θ' ≠ θ) :
    (M.setView θ view).views θ' = M.views θ' := by
  simp [setView, hne]

end SetView

/-- Operations change the view of their own thread only. -/
theorem perform_others [DecidableEq Θ] [DecidableEq L] {op : Op L V N}
    (h : M.perform θ op = some M') (hne : θ' ≠ θ) : M'.views θ' = M.views θ' := by
  cases op with
  | exchange y value acquire release =>
    simp only [perform] at h
    split at h <;> cases h
    simp [write, hne]
  | _ =>
    obtain rfl := Option.some.inj h
    simp [write, setView, hne]

/-- Only a release fence changes what relaxed stores take along. -/
theorem perform_released [DecidableEq Θ] [DecidableEq L] {op : Op L V N}
    (h : M.perform θ op = some M') (hOp : op ≠ .releaseFence) :
    (M'.views θ).released = (M.views θ).released := by
  cases op with
  | exchange y value acquire release =>
    simp only [perform] at h
    split at h <;> cases h
    simp [write]
  | releaseFence => exact absurd rfl hOp
  | _ =>
    obtain rfl := Option.some.inj h
    simp [write]

/-- A load changes what its thread has seen, and nothing else. -/
theorem load_eq_some [DecidableEq Θ] [DecidableEq L] (h : M.load θ x k = some M') :
    ∃ message, (M.history x).messages[k]? = some message ∧ (M.views θ).seen x ≤ k ∧
      M' = M.setView θ { M.views θ with
        seen := Function.update (M.views θ).seen x k
        acquired := (M.views θ).acquired ∪ message.released } := by
  unfold load at h
  split at h
  · cases h
  · rename_i message hm
    dsimp only at h
    split at h <;> cases h
    exact ⟨message, hm, ‹_›, rfl⟩

/-- A store adds a write that takes along what it releases. -/
theorem perform_store [DecidableEq Θ] [DecidableEq L] {v : V x} {release : Bool}
    (h : M.perform θ (.store x v release) = some M') :
    M'.history = Function.update M.history x
        ((M.history x).push ⟨v, (M.views θ).releases release⟩) ∧ M'.log = M.log ∧
      (M'.views θ).seen x = (M'.history x).last := by
  obtain rfl := Option.some.inj h
  exact ⟨rfl, rfl, by simp [write]⟩

/-- So does a read-modify-write, of a thread that sees the newest write; it takes
along what that one took. -/
theorem perform_exchange [DecidableEq Θ] [DecidableEq L] {v : V x} {acquire release : Bool}
    (h : M.perform θ (.exchange x v acquire release) = some M') :
    (M.views θ).seen x = (M.history x).last ∧ M'.log = M.log ∧
      ∃ released, M'.history = Function.update M.history x ((M.history x).push ⟨v, released⟩) ∧
        (M.history x).newest.released ⊆ released ∧ (M.views θ).releases release ⊆ released := by
  simp only [perform] at h
  split at h <;> cases h
  refine ⟨‹_›, rfl, _, rfl, Finset.subset_union_left, ?_⟩
  refine subset_trans ?_ Finset.subset_union_right
  cases release
  · exact Finset.Subset.refl _
  · cases acquire
    · exact Finset.Subset.refl _
    · exact Finset.subset_union_left

/-- The newest value after one more write. -/
theorem newest_of_history [DecidableEq L] {message : Message (V x)}
    (h : M'.history = Function.update M.history x ((M.history x).push message)) :
    M'.newest = Function.update M.newest x message.value := by
  funext y
  rw [newest, h]
  rcases eq_or_ne y x with rfl | hne
  · simp
  · simp [hne, newest]

end Machine

namespace WellFormed

variable [DecidableEq Θ] {M M' : Machine Θ L V N} {θ : Θ} {x : L} {k : Nat}

/-- Another view of one thread. -/
theorem setView (h : WellFormed M) {view : View L}
    (hSeen : ∀ x, view.seen x ≤ (M.history x).last) (hReleased : view.released ⊆ view.current)
    (hCurrent : view.current ⊆ view.acquired)
    (hFound : ∀ x message, (M.history x).messages[view.seen x]? = some message →
      message.released ⊆ view.acquired)
    (hOwn : Informed M.log view.current fun a => a.thread = θ) :
    WellFormed (M.setView θ view) := by
  refine ⟨fun θ' x => ?_, fun θ' => ?_, fun θ' => ?_, fun θ' x message hm => ?_, fun θ' => ?_⟩ <;>
    rcases eq_or_ne θ' θ with rfl | hne
  · simpa using hSeen x
  · simpa [hne] using h.seen_le θ' x
  · simpa using hReleased
  · simpa [hne] using h.released θ'
  · simpa using hCurrent
  · simpa [hne] using h.current θ'
  · rw [Machine.setView_self] at hm ⊢
    exact hFound x message hm
  · rw [Machine.setView_ne _ hne] at hm ⊢
    exact h.found θ' x message hm
  · simpa using hOwn
  · simpa [hne] using h.own θ'

variable [DecidableEq L]

/-- **A load keeps it.** -/
theorem load (h : WellFormed M) (hLoad : M.load θ x k = some M') : WellFormed M' := by
  obtain ⟨message, hm, hle, rfl⟩ := Machine.load_eq_some hLoad
  refine h.setView (fun y => ?_) (h.released θ) ?_ (fun y message' hm' => ?_) (h.own θ)
  · rcases eq_or_ne y x with rfl | hne
    · simpa using (M.history y).le_last hm
    · simpa [hne] using h.seen_le θ y
  · exact (h.current θ).trans Finset.subset_union_left
  · rcases eq_or_ne y x with rfl | hne
    · simp only [Function.update_self] at hm'
      obtain rfl := Option.some.inj (hm.symm.trans hm')
      exact Finset.subset_union_right
    · simp only [Function.update_of_ne hne] at hm'
      exact (h.found θ y message' hm').trans Finset.subset_union_left

/-- A write keeps it that takes nothing along its thread will not know. -/
theorem write (h : WellFormed M) {message : Message (V x)}
    (hReleased : message.released ⊆ (M.views θ).acquired) : WellFormed (M.write θ x message) := by
  refine ⟨fun θ' y => ?_, fun θ' => ?_, fun θ' => ?_, fun θ' y message' hm => ?_, fun θ' => ?_⟩
  · show ((M.setView θ _).views θ').seen y ≤ (Function.update M.history x _ y).last
    have hLast : (M.history y).last ≤
        (Function.update M.history x ((M.history x).push message) y).last := by
      rcases eq_or_ne y x with rfl | hne
      · simp
      · simp [hne]
    rcases eq_or_ne θ' θ with rfl | hThread
    · rcases eq_or_ne y x with rfl | hne
      · simp
      · simpa [hne] using h.seen_le θ' y
    · rw [Machine.setView_ne _ hThread]
      exact (h.seen_le θ' y).trans hLast
  · rcases eq_or_ne θ' θ with rfl | hThread
    · simpa [Machine.write] using h.released θ'
    · simpa [Machine.write, hThread] using h.released θ'
  · rcases eq_or_ne θ' θ with rfl | hThread
    · simpa [Machine.write] using h.current θ'
    · simpa [Machine.write, hThread] using h.current θ'
  · have hSame : ((M.write θ x message).views θ').acquired = (M.views θ').acquired := by
      rcases eq_or_ne θ' θ with rfl | hThread
      · simp [Machine.write]
      · simp [Machine.write, hThread]
    rw [hSame]
    rcases eq_or_ne θ' θ with rfl | hThread <;> rcases eq_or_ne y x with rfl | hne
    · simp only [Machine.write, Machine.setView_self, Function.update_self, History.getElem?_push,
        if_true, Option.some.injEq] at hm
      exact hm ▸ hReleased
    · simp only [Machine.write, Machine.setView_self, Function.update_of_ne hne] at hm
      exact h.found θ' y message' hm
    · have hOld := h.seen_le θ' y
      simp only [Machine.write, Machine.setView_ne _ hThread, Function.update_self,
        History.getElem?_push] at hm
      rw [if_neg (by omega)] at hm
      exact h.found θ' y message' hm
    · simp only [Machine.write, Machine.setView_ne _ hThread, Function.update_of_ne hne] at hm
      exact h.found θ' y message' hm
  · show Informed M.log _ _
    rcases eq_or_ne θ' θ with rfl | hThread
    · simpa [Machine.write] using h.own θ'
    · simpa [Machine.write, hThread] using h.own θ'

/-- **An operation keeps it.** -/
theorem perform (h : WellFormed M) {op : Op L V N} (hPerform : M.perform θ op = some M') :
    WellFormed M' := by
  cases op with
  | store y value release =>
    obtain rfl := Option.some.inj hPerform
    refine h.write ?_
    cases release
    · exact (h.released θ).trans (h.current θ)
    · exact h.current θ
  | exchange y value acquire release =>
    simp only [Machine.perform] at hPerform
    split at hPerform <;> cases hPerform
    rename_i hSeen
    have hFound : (M.history y).newest.released ⊆ (M.views θ).acquired :=
      h.found θ y _ (by rw [hSeen, History.getElem?_last])
    have hView : WellFormed (M.setView θ { M.views θ with
        current :=
          if acquire then (M.views θ).current ∪ (M.history y).newest.released
          else (M.views θ).current
        acquired := (M.views θ).acquired ∪ (M.history y).newest.released }) := by
      refine h.setView (h.seen_le θ) ?_ ?_ (fun z message hm => (h.found θ z message hm).trans
        Finset.subset_union_left) ?_
      · cases acquire
        · exact h.released θ
        · exact (h.released θ).trans Finset.subset_union_left
      · cases acquire
        · exact (h.current θ).trans Finset.subset_union_left
        · exact Finset.union_subset_union_left (h.current θ)
      · cases acquire
        · exact h.own θ
        · exact (h.own θ).mono Finset.subset_union_left fun _ ha => ha
    refine hView.write ?_
    have hCurrent := hView.current θ
    have hReleased := hView.released θ
    simp only [Machine.setView_self] at hCurrent hReleased ⊢
    refine Finset.union_subset Finset.subset_union_right ?_
    cases release
    · exact hReleased.trans hCurrent
    · exact hCurrent
  | acquireFence =>
    obtain rfl := Option.some.inj hPerform
    exact h.setView (h.seen_le θ) ((h.released θ).trans (h.current θ)) (Finset.Subset.refl _)
      (h.found θ) ((h.own θ).mono (h.current θ) fun _ ha => ha)
  | releaseFence =>
    obtain rfl := Option.some.inj hPerform
    exact h.setView (h.seen_le θ) (Finset.Subset.refl _) (h.current θ) (h.found θ) (h.own θ)
  | access target isWrite =>
    obtain rfl := Option.some.inj hPerform
    refine ⟨fun θ' y => ?_, fun θ' => ?_, fun θ' => ?_, fun θ' y message hm => ?_, fun θ' => ?_⟩ <;>
      rcases eq_or_ne θ' θ with rfl | hne
    · simpa using h.seen_le θ' y
    · simpa [hne] using h.seen_le θ' y
    · simpa using (h.released θ').trans (Finset.subset_insert _ _)
    · simpa [hne] using h.released θ'
    · simpa using Finset.insert_subset_insert _ (h.current θ')
    · simpa [hne] using h.current θ'
    · simp only [Machine.setView_self, Machine.setView_history] at hm ⊢
      exact (h.found θ' y message hm).trans (Finset.subset_insert _ _)
    · simp only [Machine.setView_ne _ hne, Machine.setView_history] at hm ⊢
      exact h.found θ' y message hm
    · simpa using (h.own θ').snoc
    · simp only [Machine.setView_ne _ hne]
      exact (h.own θ').extend fun hThread => hne hThread.symm

end WellFormed

-- ---------------------------------------------------------------------------
-- Growth
-- ---------------------------------------------------------------------------

/-- Writes are added; threads have seen at least what they saw before, and know
at least what they knew. -/
structure Grows (M M' : Machine Θ L V N) : Prop where
  messages : ∀ (x : L) (k : Nat) (message : Message (V x)),
    (M.history x).messages[k]? = some message → (M'.history x).messages[k]? = some message
  seen : ∀ θ x, (M.views θ).seen x ≤ (M'.views θ).seen x
  current : ∀ θ, (M.views θ).current ⊆ (M'.views θ).current

namespace Grows

variable {M M' M'' : Machine Θ L V N} {θ : Θ} {x : L} {k : Nat}

theorem refl (M : Machine Θ L V N) : Grows M M :=
  ⟨fun _ _ _ hm => hm, fun _ _ => le_refl _, fun _ => Finset.Subset.refl _⟩

theorem trans (h : Grows M M') (h' : Grows M' M'') : Grows M M'' :=
  ⟨fun x k message hm => h'.messages x k message (h.messages x k message hm),
    fun θ x => (h.seen θ x).trans (h'.seen θ x), fun θ => (h.current θ).trans (h'.current θ)⟩

variable [DecidableEq Θ]

/-- A newer view of one thread. -/
theorem setView {view : View L} (hSeen : ∀ x, (M.views θ).seen x ≤ view.seen x)
    (hCurrent : (M.views θ).current ⊆ view.current) : Grows M (M.setView θ view) := by
  refine ⟨fun _ _ _ hm => hm, fun θ' x => ?_, fun θ' => ?_⟩ <;> rcases eq_or_ne θ' θ with rfl | hne
  · simpa using hSeen x
  · simp [hne]
  · simpa using hCurrent
  · simp [hne]

variable [DecidableEq L]

theorem load (h : M.load θ x k = some M') : Grows M M' := by
  obtain ⟨message, -, hle, rfl⟩ := Machine.load_eq_some h
  refine setView (fun y => ?_) (Finset.Subset.refl _)
  rcases eq_or_ne y x with rfl | hne
  · simpa using hle
  · simp [hne]

theorem write (hSeen : ∀ y, (M.views θ).seen y ≤ (M.history y).last) (x : L)
    (message : Message (V x)) : Grows M (M.write θ x message) := by
  have hView : Grows M (M.setView θ { M.views θ with
      seen := Function.update (M.views θ).seen x ((M.history x).last + 1) }) := by
    refine setView (fun y => ?_) (Finset.Subset.refl _)
    rcases eq_or_ne y x with rfl | hne
    · simpa using (hSeen y).trans (Nat.le_succ _)
    · simp [hne]
  refine ⟨fun y k message' hm => ?_, hView.seen, hView.current⟩
  show (Function.update M.history x _ y).messages[k]? = _
  rcases eq_or_ne y x with rfl | hne
  · have := (M.history y).le_last hm
    rw [Function.update_self, History.getElem?_push, if_neg (by omega), hm]
  · rw [Function.update_of_ne hne, hm]

theorem perform (hWf : WellFormed M) {op : Op L V N} (h : M.perform θ op = some M') :
    Grows M M' := by
  cases op with
  | store y value release =>
    obtain rfl := Option.some.inj h
    exact write (hWf.seen_le θ) y _
  | exchange y value acquire release =>
    simp only [Machine.perform] at h
    split at h <;> cases h
    have hView : Grows M (M.setView θ { M.views θ with
        current :=
          if acquire then (M.views θ).current ∪ (M.history y).newest.released
          else (M.views θ).current
        acquired := (M.views θ).acquired ∪ (M.history y).newest.released }) := by
      refine setView (fun _ => le_refl _) ?_
      cases acquire
      · exact Finset.Subset.refl _
      · exact Finset.subset_union_left
    exact hView.trans (write (by simpa using hWf.seen_le θ) y _)
  | acquireFence =>
    obtain rfl := Option.some.inj h
    exact setView (fun _ => le_refl _) (hWf.current θ)
  | releaseFence =>
    obtain rfl := Option.some.inj h
    exact setView (fun _ => le_refl _) (Finset.Subset.refl _)
  | access target isWrite =>
    obtain rfl := Option.some.inj h
    have hView : Grows M (M.setView θ { M.views θ with
        current := insert M.log.length (M.views θ).current
        acquired := insert M.log.length (M.views θ).acquired }) :=
      setView (fun _ => le_refl _) (Finset.subset_insert _ _)
    exact ⟨hView.messages, hView.seen, hView.current⟩

end Grows

end Calvera.Lib.ReleaseAcquire
