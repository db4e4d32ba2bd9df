import Mathlib.Logic.Function.Iterate

/-!
# Iterators and size hints

An iterator is a state with a `next` that either yields an item and moves on, or
says that there is nothing more and stays where it is. What it still yields is a
list, if it ends at all (`Yields`), and only one (`Yields.unique`).

A size hint is a lower bound and, if known, an upper bound on the number of
items still to come. It is **exact** (`ExactSize`) when both are that number, at
every point of the iteration. The hint that bounds nothing never is
(`not_exactSize_default`).
-/

namespace Calvera.Lib

universe u v

variable {σ : Type u} {α : Type v} {next : σ → Option (α × σ)} {s : σ} {items : List α}

/-- The state after one call of `next`. -/
def advance (next : σ → Option (α × σ)) (s : σ) : σ := ((next s).map Prod.snd).getD s

/-- The items that are still to come. -/
inductive Yields (next : σ → Option (α × σ)) : σ → List α → Prop
  | done {s : σ} : next s = none → Yields next s []
  | more {s s' : σ} {a : α} {items : List α} :
      next s = some (a, s') → Yields next s' items → Yields next s (a :: items)

theorem advance_of_none (h : next s = none) : advance next s = s := by
  rw [advance, h]
  rfl

theorem advance_of_some {a : α} {s' : σ} (h : next s = some (a, s')) : advance next s = s' := by
  rw [advance, h]
  rfl

/-- **The rule for a property that `next` keeps.** -/
theorem iterate_induct {P : σ → Prop} (hKeep : ∀ s a s', P s → next s = some (a, s') → P s')
    (hs : P s) (k : Nat) : P ((advance next)^[k] s) := by
  induction k generalizing s with
  | zero => exact hs
  | succ k ih =>
    apply ih
    cases hNext : next s with
    | none => rwa [advance_of_none hNext]
    | some x =>
      obtain ⟨a, s'⟩ := x
      rw [advance_of_some hNext]
      exact hKeep s a s' hs hNext

/-- There is only one list of items to come. -/
theorem Yields.unique {items' : List α} (h : Yields next s items) (h' : Yields next s items') :
    items = items' := by
  induction h generalizing items' with
  | done hNone =>
    cases h' with
    | done => rfl
    | more hSome => rw [hNone] at hSome; cases hSome
  | more hSome _ ih =>
    cases h' with
    | done hNone => rw [hSome] at hNone; cases hNone
    | more hSome' h' =>
      obtain ⟨rfl, rfl⟩ := Prod.mk.inj (Option.some.inj (hSome.symm.trans hSome'))
      rw [ih h']

/-- At every point of the iteration the size hint is the number of items to come. -/
def ExactSize (next : σ → Option (α × σ)) (sizeHint : σ → Nat × Option Nat) (s : σ) : Prop :=
  ∀ k, ∃ items, Yields next ((advance next)^[k] s) items ∧
    sizeHint ((advance next)^[k] s) = (items.length, some items.length)

/-- What `size_hint` returns by default: nothing is known. -/
def defaultSizeHint (_ : σ) : Nat × Option Nat := (0, none)

/-- **The default is never exact**, not even for an iterator that is exhausted. -/
theorem not_exactSize_default : ¬ ExactSize next defaultSizeHint s := by
  intro h
  obtain ⟨items, -, hHint⟩ := h 0
  simp [defaultSizeHint] at hHint

/-- An exact hint is the number of items in the beginning. -/
theorem ExactSize.start {sizeHint : σ → Nat × Option Nat} (h : ExactSize next sizeHint s)
    (hYields : Yields next s items) : sizeHint s = (items.length, some items.length) := by
  obtain ⟨items', hYields', hHint⟩ := h 0
  rw [hYields.unique hYields']
  exact hHint

end Calvera.Lib
