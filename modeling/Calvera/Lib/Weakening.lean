import Calvera.Lib.ReleaseAcquire
import Mathlib.Data.List.Forall2

/-!
# Weaker orderings

A program with weaker orderings, or with some fences left out, can do all it
could do before: it loads the same values, and less happens before what. `Below`
relates the two machines, `OpBelow` the operations that the two programs perform
at the same place.

Results:

* `Machine.Below.load`, `.perform?` — the program with the weaker orderings follows.
* `Machine.Below.not_ordered`       — and what was a race is one.
-/

namespace Calvera.Lib.ReleaseAcquire

universe u v

variable {Θ : Type} {L : Type u} {V : L → Type v} {N : Type}

/-- The elements of two lists are related one by one. -/
theorem forall₂_getElem? {α β : Type*} {r : α → β → Prop} {l : List α} {l' : List β}
    (h : List.Forall₂ r l l') {k : Nat} {b : β} (hk : l'[k]? = some b) :
    ∃ a, l[k]? = some a ∧ r a b := by
  induction h generalizing k with
  | nil => simp at hk
  | cons hab _ ih =>
    cases k with
    | zero =>
      obtain rfl := Option.some.inj hk
      exact ⟨_, rfl, hab⟩
    | succ k => exact ih hk

/-- The same value, and it takes less along. -/
structure Message.Below {α : Type v} (m m' : Message α) : Prop where
  value : m.value = m'.value
  released : m.released ⊆ m'.released

structure History.Below {α : Type v} (h h' : History α) : Prop where
  older : List.Forall₂ Message.Below h.older h'.older
  newest : h.newest.Below h'.newest

namespace History.Below

variable {α : Type v} {h h' : History α} {m m' : Message α}

theorem messages (hh : h.Below h') : List.Forall₂ Message.Below h.messages h'.messages :=
  List.rel_append hh.older (.cons hh.newest .nil)

theorem last (hh : h.Below h') : h.last = h'.last := hh.older.length_eq

theorem push (hh : h.Below h') (hm : m.Below m') : (h.push m).Below (h'.push m') :=
  ⟨hh.messages, hm⟩

end History.Below

/-- The same has been seen, and less happened before. -/
structure View.Below (view view' : View L) : Prop where
  seen : view.seen = view'.seen
  current : view.current ⊆ view'.current
  acquired : view.acquired ⊆ view'.acquired
  released : view.released ⊆ view'.released

/-- What a store takes along. -/
theorem View.Below.releases {view view' : View L} {release release' : Bool} (h : view.Below view')
    (hReleased : view'.released ⊆ view'.current) (hRelease : release = true → release' = true) :
    view.releases release ⊆ view'.releases release' := by
  cases release <;> cases release'
  · exact h.released
  · exact h.released.trans hReleased
  · exact absurd (hRelease rfl) Bool.false_ne_true
  · exact h.current

/-- The same access, and less happened before it. -/
structure Access.Below (a a' : Access Θ N) : Prop where
  thread : a.thread = a'.thread
  target : a.target = a'.target
  isWrite : a.isWrite = a'.isWrite
  before : a.before ⊆ a'.before

/-- The same writes and accesses, and less happens before what. -/
structure Machine.Below (M M' : Machine Θ L V N) : Prop where
  history : ∀ x, (M.history x).Below (M'.history x)
  views : ∀ θ, (M.views θ).Below (M'.views θ)
  log : List.Forall₂ Access.Below M.log M'.log

/-- The operation with weaker orderings; a fence may be left out. -/
inductive OpBelow : Option (Op L V N) → Option (Op L V N) → Prop
  | refl (op : Option (Op L V N)) : OpBelow op op
  | store {x value release release'} : (release = true → release' = true) →
      OpBelow (some (.store x value release)) (some (.store x value release'))
  | exchange {x value acquire acquire' release release'} : (acquire = true → acquire' = true) →
      (release = true → release' = true) →
      OpBelow (some (.exchange x value acquire release)) (some (.exchange x value acquire' release'))
  | acquireFence : OpBelow none (some .acquireFence)
  | releaseFence : OpBelow none (some .releaseFence)

namespace Machine.Below

variable {M M' M₁' : Machine Θ L V N} {θ : Θ} {x : L} {k : Nat}

theorem init (value : (x : L) → V x) :
    Below (Machine.init value : Machine Θ L V N) (Machine.init value) where
  history _ := ⟨.nil, rfl, Finset.Subset.refl _⟩
  views _ := ⟨rfl, Finset.Subset.refl _, Finset.Subset.refl _, Finset.Subset.refl _⟩
  log := .nil

theorem newest (h : M.Below M') : M.newest = M'.newest :=
  funext fun x => (h.history x).newest.value

theorem value (h : M.Below M') (hWf : WellFormed M') (θ : Θ) (x : L) :
    M.value θ x = M'.value θ x := by
  obtain ⟨message', hm', hValue'⟩ := Machine.exists_seen hWf θ x
  obtain ⟨message, hm, hBelow⟩ := forall₂_getElem? (h.history x).messages hm'
  rw [hValue', ← hBelow.value, Machine.value, (h.views θ).seen, hm]

/-- **What was a race is one.** -/
theorem not_ordered (h : M.Below M') {same : N → N → Prop} (hRace : ¬ Ordered same M'.log) :
    ¬ Ordered same M.log := by
  refine fun hOrdered => hRace fun i j a' b' hlt hi hj hSame hWrite => ?_
  obtain ⟨a, ha, hA⟩ := forall₂_getElem? h.log hi
  obtain ⟨b, hb, hB⟩ := forall₂_getElem? h.log hj
  refine hB.before (hOrdered i j a b hlt ha hb ?_ ?_)
  · rwa [hA.target, hB.target]
  · rwa [hA.isWrite, hB.isWrite]

variable [DecidableEq Θ]

/-- Other views of one thread. -/
theorem setView (h : M.Below M') (θ : Θ) {view view' : View L} (hView : view.Below view') :
    (M.setView θ view).Below (M'.setView θ view') := by
  refine ⟨h.history, fun θ' => ?_, h.log⟩
  rcases eq_or_ne θ' θ with rfl | hne
  · simpa using hView
  · simpa [hne] using h.views θ'

/-- The thread of the other program alone learns something. -/
theorem setView_right (h : M.Below M') {view' : View L} (hView : (M.views θ).Below view') :
    M.Below (M'.setView θ view') := by
  refine ⟨h.history, fun θ' => ?_, h.log⟩
  rcases eq_or_ne θ' θ with rfl | hne
  · simpa using hView
  · simpa [hne] using h.views θ'

variable [DecidableEq L]

/-- **The same write can be found.** -/
theorem load (h : M.Below M') (hLoad : M'.load θ x k = some M₁') :
    ∃ M₁, M.load θ x k = some M₁ ∧ M₁.Below M₁' := by
  obtain ⟨message', hm', hle, rfl⟩ := Machine.load_eq_some hLoad
  obtain ⟨message, hm, hMessage⟩ := forall₂_getElem? (h.history x).messages hm'
  have hView := h.views θ
  have hLoaded : M.load θ x k = some (M.setView θ { M.views θ with
      seen := Function.update (M.views θ).seen x k
      acquired := (M.views θ).acquired ∪ message.released }) := by
    rw [Machine.load, hm]
    simp only [hView.seen, hle, if_true]
  refine ⟨_, hLoaded, h.setView θ ⟨?_, hView.current, ?_, hView.released⟩⟩
  · simp only [hView.seen]
  · exact Finset.union_subset_union hView.acquired hMessage.released

/-- A write that takes less along. -/
theorem write (h : M.Below M') {message message' : Message (V x)}
    (hMessage : message.Below message') : (M.write θ x message).Below (M'.write θ x message') := by
  have hView := h.views θ
  have hView' : View.Below
      { M.views θ with
        seen := Function.update (M.views θ).seen x ((M.history x).last + 1) }
      { M'.views θ with
        seen := Function.update (M'.views θ).seen x ((M'.history x).last + 1) } := by
    refine ⟨?_, hView.current, hView.acquired, hView.released⟩
    rw [hView.seen, (h.history x).last]
  refine ⟨fun y => ?_, (h.setView θ hView').views, h.log⟩
  show (Function.update M.history x _ y).Below (Function.update M'.history x _ y)
  rcases eq_or_ne y x with rfl | hne
  · simpa using (h.history y).push hMessage
  · simpa [hne] using h.history y

theorem store (h : M.Below M') (hWf : WellFormed M') {value : V x} {release release' : Bool}
    (hRelease : release = true → release' = true)
    (hPerform : M'.perform θ (.store x value release') = some M₁') :
    ∃ M₁, M.perform θ (.store x value release) = some M₁ ∧ M₁.Below M₁' := by
  obtain rfl := Option.some.inj hPerform
  exact ⟨_, rfl, h.write ⟨rfl, (h.views θ).releases (hWf.released θ) hRelease⟩⟩

theorem exchange (h : M.Below M') (hWf : WellFormed M') {value : V x}
    {acquire acquire' release release' : Bool} (hAcquire : acquire = true → acquire' = true)
    (hRelease : release = true → release' = true)
    (hPerform : M'.perform θ (.exchange x value acquire' release') = some M₁') :
    ∃ M₁, M.perform θ (.exchange x value acquire release) = some M₁ ∧ M₁.Below M₁' := by
  have hView := h.views θ
  have hFound := (h.history x).newest.released
  simp only [Machine.perform] at hPerform
  split at hPerform <;> cases hPerform
  rename_i hSeen
  have hSeen' : (M.views θ).seen x = (M.history x).last := by
    rw [hView.seen, hSeen, (h.history x).last]
  have hView' : View.Below
      { M.views θ with
        current :=
          if acquire then (M.views θ).current ∪ (M.history x).newest.released
          else (M.views θ).current
        acquired := (M.views θ).acquired ∪ (M.history x).newest.released }
      { M'.views θ with
        current :=
          if acquire' then (M'.views θ).current ∪ (M'.history x).newest.released
          else (M'.views θ).current
        acquired := (M'.views θ).acquired ∪ (M'.history x).newest.released } := by
    refine ⟨hView.seen, ?_, Finset.union_subset_union hView.acquired hFound, hView.released⟩
    cases acquire <;> cases acquire'
    · exact hView.current
    · exact hView.current.trans Finset.subset_union_left
    · exact absurd (hAcquire rfl) Bool.false_ne_true
    · exact Finset.union_subset_union hView.current hFound
  have hReleases := hView'.releases ?_ hRelease
  · exact ⟨_, if_pos hSeen', (h.setView θ hView').write
      ⟨rfl, Finset.union_subset_union hFound hReleases⟩⟩
  · cases acquire'
    · exact hWf.released θ
    · exact (hWf.released θ).trans Finset.subset_union_left

/-- An access, of which less happened before. -/
theorem access (h : M.Below M') {target : N} {isWrite : Bool}
    (hPerform : M'.perform θ (.access target isWrite) = some M₁') :
    ∃ M₁, M.perform θ (.access target isWrite) = some M₁ ∧ M₁.Below M₁' := by
  have hView := h.views θ
  obtain rfl := Option.some.inj hPerform
  have hView' : View.Below
      { M.views θ with
        current := insert M.log.length (M.views θ).current
        acquired := insert M.log.length (M.views θ).acquired }
      { M'.views θ with
        current := insert M'.log.length (M'.views θ).current
        acquired := insert M'.log.length (M'.views θ).acquired } := by
    rw [h.log.length_eq]
    exact ⟨hView.seen, Finset.insert_subset_insert _ hView.current,
      Finset.insert_subset_insert _ hView.acquired, hView.released⟩
  have hSet := h.setView θ hView'
  exact ⟨_, rfl, hSet.history, hSet.views,
    List.rel_append h.log (.cons ⟨rfl, rfl, rfl, hView.current⟩ .nil)⟩

/-- **The operation with weaker orderings can be performed.** -/
theorem perform? (h : M.Below M') (hWf : WellFormed M') {op op' : Option (Op L V N)}
    (hOp : OpBelow op op') (hPerform : M'.perform? θ op' = some M₁') :
    ∃ M₁, M.perform? θ op = some M₁ ∧ M₁.Below M₁' := by
  have hView := h.views θ
  cases hOp with
  | refl =>
    match op with
    | none =>
      obtain rfl := Option.some.inj hPerform
      exact ⟨M, rfl, h⟩
    | some (.store x value release) => exact h.store hWf id hPerform
    | some (.exchange x value acquire release) => exact h.exchange hWf id id hPerform
    | some .acquireFence =>
      obtain rfl := Option.some.inj hPerform
      exact ⟨_, rfl, h.setView θ ⟨hView.seen, hView.acquired, hView.acquired, hView.released⟩⟩
    | some .releaseFence =>
      obtain rfl := Option.some.inj hPerform
      exact ⟨_, rfl, h.setView θ ⟨hView.seen, hView.current, hView.acquired, hView.current⟩⟩
    | some (.access target isWrite) => exact h.access hPerform
  | store hRelease => exact h.store hWf hRelease hPerform
  | exchange hAcquire hRelease => exact h.exchange hWf hAcquire hRelease hPerform
  | acquireFence =>
    obtain rfl := Option.some.inj hPerform
    exact ⟨M, rfl, h.setView_right
      ⟨hView.seen, hView.current.trans (hWf.current θ), hView.acquired, hView.released⟩⟩
  | releaseFence =>
    obtain rfl := Option.some.inj hPerform
    exact ⟨M, rfl, h.setView_right
      ⟨hView.seen, hView.current, hView.acquired, hView.released.trans (hWf.released θ)⟩⟩

end Machine.Below

end Calvera.Lib.ReleaseAcquire
