import Calvera.Lib.Run
import Mathlib.Data.Finset.Insert
import Mathlib.Data.List.Basic
import Mathlib.Order.WellFounded

/-!
# Executions

An **execution** is a run that goes on forever: at each moment one allowed action
is taken, or nothing happens. It is **fair** to a thread if the thread is not
passed over forever while it could act.

What must happen is shown with a rank that the steps of a thread lower and no
other step raises: as long as the goal is not reached, the thread can act, so
it does, and the rank falls.

Results:

* `Execution.keeps`   — what every step keeps, holds ever after.
* `Execution.stays`   — what every step keeps until something else happens.
* `Execution.leadsTo` — the rank rule for fair executions.
* `exists_forall`     — finitely many things that happen and stay, hold together.
* `Path.extend`       — a run that comes to an end, as an execution.
-/

namespace Calvera.Lib

universe u v w x

variable {σ : Type u} {α : Type v} {ε : Type w}

/-- **What each of finitely many comes to, and keeps**, all come to. -/
theorem exists_forall {ι : Type x} (s : Finset ι) {P : ι → Nat → Prop} {i : Nat}
    (hKeep : ∀ a j, P a j → P a (j + 1)) (h : ∀ a ∈ s, ∃ j, i ≤ j ∧ P a j) :
    ∃ j, i ≤ j ∧ ∀ a ∈ s, P a j := by
  have hMono : ∀ a j k, j ≤ k → P a j → P a k := fun a j k hjk hP =>
    Nat.le_induction hP (fun k _ => hKeep a k) k hjk
  classical
  induction s using Finset.induction_on with
  | empty => exact ⟨i, le_refl i, fun a ha => (Finset.notMem_empty a ha).elim⟩
  | insert a s _ ih =>
    obtain ⟨j, hj, hAll⟩ := ih fun b hb => h b (Finset.mem_insert_of_mem hb)
    obtain ⟨k, hk, hP⟩ := h a (Finset.mem_insert_self a s)
    refine ⟨max j k, by omega, fun b hb => ?_⟩
    rcases Finset.mem_insert.mp hb with rfl | hb
    · exact hMono b k _ (le_max_right j k) hP
    · exact hMono b j _ (le_max_left j k) (hAll b hb)

/-- A run without end. -/
structure Execution (step : σ → α → Option (σ × List ε)) (ok : α → Prop) (s₀ : σ) where
  state : Nat → σ
  /-- The action that is taken at a moment, if there is one. -/
  act : Nat → Option α
  events : Nat → List ε
  start : state 0 = s₀
  rest : ∀ i, act i = none → state (i + 1) = state i ∧ events i = []
  next : ∀ i a, act i = some a → ok a ∧ step (state i) a = some (state (i + 1), events i)

namespace Execution

variable {step : σ → α → Option (σ × List ε)} {ok : α → Prop} {s₀ : σ}
  (x : Execution step ok s₀) {i j : Nat}

/-- What has happened before a moment. -/
def trace (i : Nat) : List ε := (List.range i).flatMap x.events

theorem trace_succ : x.trace (i + 1) = x.trace i ++ x.events i := by
  simp [trace, List.range_succ]

/-- A moment at which nothing happens, or a step is taken. -/
theorem moves (i : Nat) :
    (x.act i = none ∧ x.state (i + 1) = x.state i ∧ x.trace (i + 1) = x.trace i) ∨
      ∃ a, x.act i = some a ∧ ok a ∧ step (x.state i) a = some (x.state (i + 1), x.events i) := by
  cases hAct : x.act i with
  | none =>
    obtain ⟨hState, hEvents⟩ := x.rest i hAct
    exact .inl ⟨rfl, hState, by rw [trace_succ, hEvents, List.append_nil]⟩
  | some a => exact .inr ⟨a, rfl, x.next i a hAct⟩

/-- Its beginnings are runs. -/
theorem run (i : Nat) : Run step ok s₀ (x.trace i) (x.state i) := by
  induction i with
  | zero =>
    rw [x.start]
    exact .nil
  | succ i ih =>
    rcases x.moves i with ⟨-, hState, hTrace⟩ | ⟨a, -, hOk, hs⟩
    · rwa [hState, hTrace]
    · rw [trace_succ]
      exact ih.snoc hOk hs

/-- **What every step keeps**, holds ever after. -/
theorem keeps {P : List ε → σ → Prop}
    (hStep : ∀ {tr s a s' es}, Run step ok s₀ tr s → P tr s → ok a →
      step s a = some (s', es) → P (tr ++ es) s')
    (hij : i ≤ j) (h : P (x.trace i) (x.state i)) : P (x.trace j) (x.state j) := by
  induction j, hij using Nat.le_induction with
  | base => exact h
  | succ j _ ih =>
    rcases x.moves j with ⟨-, hState, hTrace⟩ | ⟨a, -, hOk, hs⟩
    · rwa [hState, hTrace]
    · rw [trace_succ]
      exact hStep (x.run j) ih hOk hs

/-- **What every step keeps until something else happens**, holds as long as that does not. -/
theorem stays {P Q : List ε → σ → Prop}
    (hStep : ∀ j a, x.act j = some a → P (x.trace j) (x.state j) →
      Q (x.trace (j + 1)) (x.state (j + 1)) ∨ P (x.trace (j + 1)) (x.state (j + 1)))
    (hij : i ≤ j) (h : P (x.trace i) (x.state i)) :
    P (x.trace j) (x.state j) ∨ ∃ k, i ≤ k ∧ Q (x.trace k) (x.state k) := by
  induction j, hij using Nat.le_induction with
  | base => exact .inl h
  | succ j hij ih =>
    rcases ih with hP | hDone
    · rcases x.moves j with ⟨-, hState, hTrace⟩ | ⟨a, hAct, -, -⟩
      · rw [hState, hTrace]
        exact .inl hP
      · exact (hStep j a hAct hP).symm.imp id fun hQ => ⟨j + 1, by omega, hQ⟩
    · exact .inr hDone

/-- The thread acts again and again, unless it cannot again and again. -/
def Fair (mine : α → Bool) : Prop :=
  ∀ i, (∀ j, i ≤ j → ∃ a, mine a = true ∧ ok a ∧ (step (x.state j) a).isSome = true) →
    ∃ j a, i ≤ j ∧ x.act j = some a ∧ mine a = true

/-- **The rank rule.** From `P` on, until `Q` is reached, the thread can act; its
actions lower a rank that no other action raises. Then `Q` is reached. -/
theorem leadsTo {β : Type x} [Preorder β] [WellFoundedLT β] {mine : α → Bool} (hFair : x.Fair mine)
    {P Q : List ε → σ → Prop} (rank : σ → β)
    (hEnabled : ∀ j, P (x.trace j) (x.state j) →
      Q (x.trace j) (x.state j) ∨
        ∃ a, mine a = true ∧ ok a ∧ (step (x.state j) a).isSome = true)
    (hStep : ∀ j a, x.act j = some a → P (x.trace j) (x.state j) →
      Q (x.trace (j + 1)) (x.state (j + 1)) ∨
        P (x.trace (j + 1)) (x.state (j + 1)) ∧ rank (x.state (j + 1)) ≤ rank (x.state j) ∧
          (mine a = true → rank (x.state (j + 1)) < rank (x.state j)))
    (h : P (x.trace i) (x.state i)) : ∃ j, i ≤ j ∧ Q (x.trace j) (x.state j) := by
  induction hRank : rank (x.state i) using WellFoundedLT.induction generalizing i with
  | _ r ih =>
    subst hRank
    by_contra hNever
    push Not at hNever
    -- the goal is not reached, so `P` stays, and the rank is not raised
    have hStays : ∀ j, i ≤ j →
        P (x.trace j) (x.state j) ∧ rank (x.state j) ≤ rank (x.state i) := by
      intro j hij
      refine (x.stays (P := fun tr s => P tr s ∧ rank s ≤ rank (x.state i)) (Q := Q)
        (fun k a hAct hP => ?_) hij ⟨h, le_refl _⟩).resolve_right
        fun ⟨k, hk, hQ⟩ => hNever k hk hQ
      refine (hStep k a hAct hP.1).imp id fun hNext => ?_
      obtain ⟨hP', hLe', -⟩ := hNext
      exact ⟨hP', hLe'.trans hP.2⟩
    obtain ⟨j, a, hij, hAct, hMine⟩ := hFair i fun j hij =>
      (hEnabled j (hStays j hij).1).resolve_left (hNever j hij)
    obtain ⟨hP, hLe⟩ := hStays j hij
    obtain ⟨hP', -, hLess⟩ := (hStep j a hAct hP).resolve_left (hNever (j + 1) (by omega))
    obtain ⟨k, hk, hQ⟩ := ih _ ((hLess hMine).trans_le hLe) hP' rfl
    exact hNever k (by omega) hQ

end Execution

/-- **A run that comes to an end**, after which nothing happens. -/
theorem Path.extend {step : σ → α → Option (σ × List ε)} {ok : α → Prop} {s₀ s : σ}
    {ts : List (Transition σ α ε)} (h : Path step ok s₀ ts s) :
    ∃ x : Execution step ok s₀,
      (∀ i ≤ ts.length, x.trace i = (ts.take i).flatMap Transition.events) ∧
      (∀ i t, ts[i]? = some t → x.act i = some t.act) ∧
      ∀ i, ts.length ≤ i → x.state i = s ∧ x.act i = none := by
  induction h with
  | nil =>
    exact ⟨⟨fun _ => s₀, fun _ => none, fun _ => [], rfl, fun _ _ => ⟨rfl, rfl⟩,
      fun _ _ hAct => (by cases hAct)⟩, fun i _ => by simp [Execution.trace], by simp,
      fun _ _ => ⟨rfl, rfl⟩⟩
  | @snoc ts s s' a es hPath hOk hs ih =>
    obtain ⟨x, hTrace, hActs, hEnd⟩ := ih
    obtain ⟨hState, -⟩ := hEnd ts.length (le_refl _)
    refine ⟨{
      state := fun i => if i ≤ ts.length then x.state i else s'
      act := fun i => if i = ts.length then some a else x.act i
      events := fun i => if i = ts.length then es else x.events i
      start := by simp [x.start]
      rest := fun i hAct => ?_
      next := fun i b hAct => ?_ }, fun i hi => ?_, fun i t ht => ?_, fun i hi => ?_⟩
    · split at hAct
      · cases hAct
      · rename_i hne
        rw [if_neg hne]
        obtain ⟨hSame, hNone⟩ := x.rest i hAct
        refine ⟨?_, hNone⟩
        rcases Nat.lt_or_gt_of_ne hne with hlt | hgt
        · rw [if_pos (by omega), if_pos (by omega), hSame]
        · rw [if_neg (by omega), if_neg (by omega)]
    · split at hAct
      · obtain rfl := Option.some.inj hAct
        subst ‹i = _›
        rw [if_pos (le_refl _), if_neg (by omega), if_pos rfl, hState]
        exact ⟨hOk, hs⟩
      · rename_i hne
        have hlt : i < ts.length := by
          by_contra hge
          rw [(hEnd i (by omega)).2] at hAct
          cases hAct
        rw [if_pos (by omega), if_pos (by omega), if_neg hne]
        exact x.next i b hAct
    · -- before the last step the events are the old ones
      have hOld : ∀ k ≤ ts.length, ((List.range k).flatMap fun j =>
          if j = ts.length then es else x.events j) = (ts.take k).flatMap Transition.events := by
        intro k hk
        rw [← hTrace k hk]
        refine List.flatMap_congr fun j hj => if_neg ?_
        have := List.mem_range.mp hj
        omega
      rcases Nat.lt_or_ge ts.length i with hgt | hle
      · rw [List.length_append, List.length_singleton] at hi
        obtain rfl : i = ts.length + 1 := by omega
        have hAll := hOld ts.length (le_refl _)
        rw [List.take_length] at hAll
        rw [List.take_of_length_le (by simp), List.flatMap_append, List.flatMap_singleton, ← hAll]
        simp only [Execution.trace, List.range_succ, List.flatMap_append, List.flatMap_singleton,
          if_true]
      · rw [List.take_append_of_le_length hle]
        exact hOld i hle
    · dsimp only
      rcases Nat.lt_trichotomy i ts.length with hlt | rfl | hgt
      · rw [List.getElem?_append_left hlt] at ht
        rw [if_neg (by omega)]
        exact hActs i t ht
      · rw [List.getElem?_concat_length] at ht
        rw [if_pos rfl, ← Option.some.inj ht]
      · rw [List.getElem?_eq_none (by simp; omega)] at ht
        cases ht
    · rw [List.length_append, List.length_singleton] at hi
      dsimp only
      rw [if_neg (by omega), if_neg (by omega)]
      exact ⟨rfl, (hEnd i (by omega)).2⟩

end Calvera.Lib
