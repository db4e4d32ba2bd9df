import Calvera.Lib.Ring
import Mathlib.Data.Finset.Max
import Mathlib.Logic.Function.Basic
import Mathlib.Logic.Relation

/-!
# Protocol — a staged pipeline over a ring

What a disruptor is for, without its code. Producers **claim** sequence numbers
in order and **publish** them in any order. Consumers are arranged in stages; a
consumer is **granted** the sequences it may read and stores a **cursor** when
it is done with them. Sequence `s` lives in slot `s mod size`, so three rules
keep the slots apart:

* a consumer of the first stage is granted what is published without a gap;
* a consumer of a later stage is granted what all of the stage before is done
  with;
* a claim must stay within `size` of every cursor of the last stage.

All three speak about a sequence having **passed** a level: level `0` is the
publication, level `j + 1` is stage `j` (`State.Passed`). The last stage is
enough for the third rule because passing a level means having passed all
levels before it (`Inv.passed_le`).

Results:

* `Reachable.inv`       — the rules keep the invariant `Inv`.
* `Inv.slot_exclusion`  — an unpublished claim shares its slot with no other
  unpublished claim and with nothing a consumer has been granted.
* `Inv.lap`             — the published set stays within one lap of each cursor.
* `Inv.granted_le_cursor` — stages keep their order.
* `Inv.progress`        — when everything is published and all grants are used
  up, some consumer can be granted more, or all are at the end.
-/

namespace Calvera.Protocol

open Calvera.Lib

universe u

/-- Consumers arranged in the non-empty stages `0..=last`. -/
structure Topology (C : Type u) where
  members : Finset C
  stage : C → Nat
  last : Nat
  stage_le : ∀ c ∈ members, stage c ≤ last
  occupied : ∀ j ≤ last, ∃ c ∈ members, stage c = j

variable {C : Type u}

theorem Topology.nonempty (T : Topology C) : T.members.Nonempty := by
  obtain ⟨c, hMem, -⟩ := T.occupied 0 (Nat.zero_le _)
  exact ⟨c, hMem⟩

/-- The state of the pipeline. Sequences below `0` count as published. -/
structure State (C : Type u) where
  /-- The highest claimed sequence. -/
  claimed : Int
  published : Set Int
  /-- The highest sequence each consumer is done with. -/
  cursor : C → Int
  /-- The highest sequence each consumer may read. -/
  granted : C → Int

namespace State

/-- Nothing claimed, published or read. -/
def init : State C where
  claimed := -1
  published := {s | s < 0}
  cursor := fun _ => -1
  granted := fun _ => -1

/-- Everything up to `v` has passed the level: level `0` is publication,
level `j + 1` is stage `j`. -/
def Passed (T : Topology C) (a : State C) : Nat → Int → Prop
  | 0, v => ∀ s ≤ v, s ∈ a.published
  | j + 1, v => ∀ c ∈ T.members, T.stage c = j → v ≤ a.cursor c

/-- What passed before `v` passed too. -/
theorem Passed.mono {T : Topology C} {a : State C} {j : Nat} {v v' : Int}
    (h : a.Passed T j v) (hle : v' ≤ v) : a.Passed T j v' := by
  cases j with
  | zero => exact fun s hs => h s (hs.trans hle)
  | succ j => exact fun c hMem hStage => hle.trans (h c hMem hStage)

/-- The later state has published more, and its cursors are further ahead. -/
structure Later (T : Topology C) (a a' : State C) : Prop where
  published : a.published ⊆ a'.published
  cursor : ∀ c ∈ T.members, a.cursor c ≤ a'.cursor c

theorem Later.refl {T : Topology C} (a : State C) : a.Later T a :=
  ⟨fun _ h => h, fun _ _ => le_refl _⟩

theorem Later.trans {T : Topology C} {a a' a'' : State C} (h : a.Later T a')
    (h' : a'.Later T a'') : a.Later T a'' :=
  ⟨h.published.trans h'.published, fun c hMem => (h.cursor c hMem).trans (h'.cursor c hMem)⟩

/-- What passed stays passed. -/
theorem Passed.later {T : Topology C} {a a' : State C} {j : Nat} {v : Int}
    (h : a.Passed T j v) (hLater : a.Later T a') : a'.Passed T j v := by
  cases j with
  | zero => exact fun s hs => hLater.published (h s hs)
  | succ j => exact fun c hMem hStage => (h c hMem hStage).trans (hLater.cursor c hMem)

end State

-- ---------------------------------------------------------------------------
-- The invariant
-- ---------------------------------------------------------------------------

variable {T : Topology C} {size : Nat} {a : State C}

/-- What holds in every reachable state. -/
structure Inv (T : Topology C) (size : Nat) (a : State C) : Prop where
  cursor_ge : ∀ c ∈ T.members, -1 ≤ a.cursor c
  negative : ∀ s < 0, s ∈ a.published
  published_le : ∀ s ∈ a.published, s ≤ a.claimed
  cursor_le_granted : ∀ c ∈ T.members, a.cursor c ≤ a.granted c
  granted_passed : ∀ c ∈ T.members, a.Passed T (T.stage c) (a.granted c)
  /-- Back-pressure: the round before the highest claim has passed the last stage. -/
  room : a.Passed T (T.last + 1) (a.claimed - size)

namespace Inv

/-- Passing a stage means having passed the level before it: the stage is not
empty, and its consumers were granted only what had passed. -/
theorem passed_pred (hInv : Inv T size a) {j : Nat} (hj : j ≤ T.last) {v : Int}
    (h : a.Passed T (j + 1) v) : a.Passed T j v := by
  obtain ⟨c, hMem, rfl⟩ := T.occupied j hj
  exact (hInv.granted_passed c hMem).mono ((h c hMem rfl).trans (hInv.cursor_le_granted c hMem))

/-- **Passing a level means having passed all levels before it.** -/
theorem passed_le (hInv : Inv T size a) {i j : Nat} (hij : i ≤ j) (hj : j ≤ T.last + 1) {v : Int}
    (h : a.Passed T j v) : a.Passed T i v := by
  induction j, hij using Nat.le_induction with
  | base => exact h
  | succ j _ ih => exact ih (by omega) (hInv.passed_pred (by omega) h)

/-- What passed the last stage is behind every cursor. -/
theorem le_cursor (hInv : Inv T size a) {v : Int} (h : a.Passed T (T.last + 1) v) {c : C}
    (hMem : c ∈ T.members) : v ≤ a.cursor c :=
  hInv.passed_le (i := T.stage c + 1) (by have := T.stage_le c hMem; omega) (le_refl _) h c hMem rfl

theorem passed_iff (hInv : Inv T size a) {v : Int} :
    a.Passed T (T.last + 1) v ↔ ∀ c ∈ T.members, v ≤ a.cursor c :=
  ⟨fun h _ hMem => hInv.le_cursor h hMem, fun h c hMem _ => h c hMem⟩

/-- What a consumer may read is published. -/
theorem granted_published (hInv : Inv T size a) {c : C} (hMem : c ∈ T.members) {s : Int}
    (hs : s ≤ a.granted c) : s ∈ a.published :=
  hInv.passed_le (Nat.zero_le _) (by have := T.stage_le c hMem; omega)
    (hInv.granted_passed c hMem) s hs

theorem granted_le_claimed (hInv : Inv T size a) {c : C} (hMem : c ∈ T.members) :
    a.granted c ≤ a.claimed :=
  hInv.published_le _ (hInv.granted_published hMem (le_refl _))

theorem cursor_le_claimed (hInv : Inv T size a) {c : C} (hMem : c ∈ T.members) :
    a.cursor c ≤ a.claimed :=
  (hInv.cursor_le_granted c hMem).trans (hInv.granted_le_claimed hMem)

/-- Claims stay within one round of every cursor. -/
theorem claimed_le (hInv : Inv T size a) {c : C} (hMem : c ∈ T.members) :
    a.claimed ≤ a.cursor c + size := by
  have := hInv.le_cursor hInv.room hMem
  omega

/-- **Stages keep their order**: what a consumer may read, every consumer of an
earlier stage is done with. -/
theorem granted_le_cursor (hInv : Inv T size a) {c c' : C} (hMem : c ∈ T.members)
    (hMem' : c' ∈ T.members) (hlt : T.stage c < T.stage c') : a.granted c' ≤ a.cursor c :=
  hInv.passed_le (i := T.stage c + 1) (by omega) (by have := T.stage_le c' hMem'; omega)
    (hInv.granted_passed c' hMem') c hMem rfl

/-- The published set is a lap, seen from any cursor. -/
theorem lap (hInv : Inv T size a) {c : C} (hMem : c ∈ T.members) :
    Lap size a.published (a.cursor c) where
  filled _ hs := hInv.granted_published hMem (hs.trans (hInv.cursor_le_granted c hMem))
  bounded s hs := (hInv.published_le s hs).trans (hInv.claimed_le hMem)

/-- An unpublished sequence is ahead of everything a consumer may read. -/
theorem granted_lt (hInv : Inv T size a) {c : C} (hMem : c ∈ T.members) {s : Int}
    (hs : s ∉ a.published) : a.granted c < s := by
  by_contra hle
  exact hs (hInv.granted_published hMem (Int.not_lt.mp hle))

/-- **Slot exclusion.** An unpublished claim `s` shares its slot with no other
unpublished claim and with nothing a consumer may still read. -/
theorem slot_exclusion (hInv : Inv T size a) (hSize : 0 < size) {s t : Int}
    (hs : s ∉ a.published) (hsLe : s ≤ a.claimed)
    (ht : (t ∉ a.published ∧ t ≤ a.claimed) ∨
      ∃ c ∈ T.members, a.cursor c < t ∧ t ≤ a.granted c)
    (hSlot : slotOf size s = slotOf size t) : s = t := by
  rcases ht with ⟨ht, htLe⟩ | ⟨c, hMem, hlo, hhi⟩
  · obtain ⟨c, hMem⟩ := T.nonempty
    have := hInv.granted_lt hMem hs
    have := hInv.granted_lt hMem ht
    have := hInv.cursor_le_granted c hMem
    have := hInv.claimed_le hMem
    exact slotOf_inj hSize (by omega) (by omega) hSlot
  · have := hInv.granted_lt hMem hs
    have := hInv.claimed_le hMem
    exact slotOf_inj hSize (by omega) (by omega) hSlot

/-- The unpublished claims fit into one round. -/
theorem unpublished_le_size (hInv : Inv T size a) {lower : Int}
    (hs : ∀ s, lower ≤ s → s ≤ a.claimed → s ∉ a.published) : a.claimed - lower + 1 ≤ size := by
  obtain ⟨c, hMem⟩ := T.nonempty
  have := hInv.claimed_le hMem
  rcases lt_or_ge a.claimed lower with hlt | hle
  · omega
  · have := hInv.granted_lt hMem (hs lower (le_refl _) hle)
    have := hInv.cursor_le_granted c hMem
    omega

end Inv

-- ---------------------------------------------------------------------------
-- Steps
-- ---------------------------------------------------------------------------

theorem inv_init : Inv T size (State.init : State C) where
  cursor_ge _ _ := le_refl _
  negative _ hs := hs
  published_le s hs := by
    have : s < 0 := hs
    show s ≤ -1
    omega
  cursor_le_granted _ _ := le_refl _
  granted_passed c _ := by
    cases T.stage c with
    | zero =>
      intro s hs
      have : s ≤ -1 := hs
      show s < 0
      omega
    | succ j => exact fun _ _ _ => le_refl _
  room c _ _ := by
    show (-1 : Int) - size ≤ -1
    omega

variable [DecidableEq C] {a' : State C}

/-- The moves of the pipeline. -/
inductive Step (T : Topology C) (size : Nat) (a : State C) : State C → Prop
  /-- Claim the next `n` sequences. -/
  | claim (n : Nat) : a.Passed T (T.last + 1) (a.claimed + n - size) →
      Step T size a { a with claimed := a.claimed + n }
  /-- Give the last `n` claimed sequences back, none of them published. -/
  | retract (n : Nat) : (∀ s ∈ a.published, s ≤ a.claimed - n) →
      Step T size a { a with claimed := a.claimed - n }
  /-- Publish claimed sequences. -/
  | publish (new : Set Int) : (∀ s ∈ new, s ≤ a.claimed) →
      Step T size a { a with published := a.published ∪ new }
  /-- Let a consumer read up to `v`. -/
  | grant (c : C) (v : Int) : c ∈ T.members → a.cursor c ≤ v → a.Passed T (T.stage c) v →
      Step T size a { a with granted := Function.update a.granted c v }
  /-- A consumer is done with everything up to `v`. -/
  | release (c : C) (v : Int) : c ∈ T.members → a.cursor c ≤ v → v ≤ a.granted c →
      Step T size a { a with cursor := Function.update a.cursor c v }

/-- Any number of moves. -/
def Steps (T : Topology C) (size : Nat) : State C → State C → Prop :=
  Relation.ReflTransGen (Step T size)

/-- The reachable states. -/
def Reachable (T : Topology C) (size : Nat) : State C → Prop := Steps T size State.init

/-- Every move goes to a later state. -/
theorem Step.later (h : Step T size a a') : a.Later T a' := by
  cases h with
  | publish new hNew => exact ⟨fun _ => Or.inl, fun _ _ => le_refl _⟩
  | release c v hMem hLe _ =>
    refine ⟨fun _ h => h, fun c' _ => ?_⟩
    rcases eq_or_ne c' c with rfl | hne
    · simpa using hLe
    · simp [hne]
  | _ => exact ⟨fun _ h => h, fun _ _ => le_refl _⟩

theorem Steps.later (h : Steps T size a a') : a.Later T a' := by
  induction h with
  | refl => exact .refl a
  | tail _ hStep ih => exact ih.trans hStep.later

theorem step_inv (hInv : Inv T size a) (h : Step T size a a') : Inv T size a' := by
  have hLater := h.later
  cases h with
  | claim n hRoom =>
    exact { hInv with
      published_le := fun s hs => by have := hInv.published_le s hs; show s ≤ a.claimed + n; omega
      granted_passed := fun c hMem => (hInv.granted_passed c hMem).later hLater
      room := hRoom.later hLater }
  | retract n hNone =>
    exact { hInv with
      published_le := hNone
      granted_passed := fun c hMem => (hInv.granted_passed c hMem).later hLater
      room := (hInv.room.mono (by show a.claimed - n - size ≤ a.claimed - size; omega)).later
        hLater }
  | publish new hNew =>
    exact { hInv with
      negative := fun s hs => Or.inl (hInv.negative s hs)
      published_le := fun s hs => hs.elim (hInv.published_le s) (hNew s)
      granted_passed := fun c hMem => (hInv.granted_passed c hMem).later hLater
      room := hInv.room.later hLater }
  | grant c v hMem hLe hPassed =>
    refine { hInv with
      cursor_le_granted := fun c' hMem' => ?_
      granted_passed := fun c' hMem' => ?_
      room := hInv.room.later hLater }
    · rcases eq_or_ne c' c with rfl | hne
      · simpa using hLe
      · simpa [hne] using hInv.cursor_le_granted c' hMem'
    · rcases eq_or_ne c' c with rfl | hne
      · simpa using hPassed.later hLater
      · simpa [hne] using (hInv.granted_passed c' hMem').later hLater
  | release c v hMem hLe hGranted =>
    refine { hInv with
      cursor_ge := fun c' hMem' => (hInv.cursor_ge c' hMem').trans (hLater.cursor c' hMem')
      cursor_le_granted := fun c' hMem' => ?_
      granted_passed := fun c' hMem' => (hInv.granted_passed c' hMem').later hLater
      room := hInv.room.later hLater }
    rcases eq_or_ne c' c with rfl | hne
    · simpa using hGranted
    · simpa [hne] using hInv.cursor_le_granted c' hMem'

/-- **The rules keep the invariant.** -/
theorem Reachable.inv (h : Reachable T size a) : Inv T size a := by
  induction h with
  | refl => exact inv_init
  | tail _ hStep ih => exact step_inv ih hStep

end Calvera.Protocol
