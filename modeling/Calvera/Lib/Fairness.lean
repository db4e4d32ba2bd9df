import Calvera.Lib.Spec
import Mathlib.Order.Monotone.Basic
import Mathlib.Data.Nat.Init

/-!
# Weak fairness

A behaviour is **weakly fair** to an action if the action is taken again and
again, unless it is disabled again and again. Only steps that change the state
count, as in `WF_vars(A)`.

A specification that can do only so much comes to rest, and where it rests, none
of the actions it is fair to is enabled.

Results:

* `Spec.Behaviour.settles`      — a bounded measure that every step raises brings
  a behaviour to rest.
* `WeaklyFair.disabled_of_rest` — at rest, a fair action is disabled.
-/

namespace Calvera.Lib

universe x

variable {τ : Type x}

/-- `A` can be taken in `x`, and would change it. -/
def Enabled (A : τ → τ → Prop) (x : τ) : Prop := ∃ y, A x y ∧ y ≠ x

/-- `WF_vars(A)`. -/
def WeaklyFair (A : τ → τ → Prop) (b : Nat → τ) : Prop :=
  ∀ i, (∀ j, i ≤ j → Enabled A (b j)) → ∃ j, i ≤ j ∧ A (b j) (b (j + 1)) ∧ b (j + 1) ≠ b j

/-- Nothing happens from `i` on. -/
def RestsFrom (b : Nat → τ) (i : Nat) : Prop := ∀ j, i ≤ j → b j = b i

/-- At rest, an action the behaviour is fair to is disabled. -/
theorem WeaklyFair.disabled_of_rest {A : τ → τ → Prop} {b : Nat → τ} (hFair : WeaklyFair A b)
    {i : Nat} (hRest : RestsFrom b i) : ¬ Enabled A (b i) := by
  intro hEnabled
  have hAlways : ∀ j, i ≤ j → Enabled A (b j) := by
    intro j hj
    rw [hRest j hj]
    exact hEnabled
  obtain ⟨j, hj, -, hChanged⟩ := hFair i hAlways
  exact hChanged ((hRest (j + 1) (by omega)).trans (hRest j hj).symm)

/-- A behaviour that rests where an action is disabled is fair to it. -/
theorem WeaklyFair.of_rest {A : τ → τ → Prop} {b : Nat → τ} {i : Nat} (hRest : RestsFrom b i)
    (hDisabled : ¬ Enabled A (b i)) : WeaklyFair A b := by
  intro k hEnabled
  have hThere := hEnabled (max k i) (le_max_left _ _)
  rw [hRest _ (le_max_right _ _)] at hThere
  exact (hDisabled hThere).elim

/-- A bounded sequence of numbers that never falls is constant from some point on. -/
theorem exists_constant_of_bounded {f : Nat → Nat} {bound : Nat} (hMono : ∀ i, f i ≤ f (i + 1))
    (hBound : ∀ i, f i ≤ bound) : ∃ i, ∀ j, i ≤ j → f j = f i := by
  suffices hAll : ∀ gap i, bound - f i = gap → ∃ i, ∀ j, i ≤ j → f j = f i from hAll _ 0 rfl
  intro gap
  -- each rise closes a part of the gap to the bound
  induction gap using Nat.strong_induction_on with
  | _ gap ih =>
    intro i hGap
    by_cases hRise : ∃ j, i ≤ j ∧ f i < f j
    · obtain ⟨j, -, hlt⟩ := hRise
      have := hBound j
      exact ih (bound - f j) (by omega) j rfl
    · refine ⟨i, fun j hj => ?_⟩
      have hle : f i ≤ f j := monotone_nat_of_le_succ hMono hj
      have hge : ¬ f i < f j := fun hlt => hRise ⟨j, hj, hlt⟩
      omega

/-- **A specification that can do only so much comes to rest.** The measure is
raised by every step that changes the state, as long as the invariant holds. -/
theorem Spec.Behaviour.settles {S : Spec τ} {b : Nat → τ} (h : S.Behaviour b) {Inv : τ → Prop}
    (measure : τ → Nat) (bound : Nat) (hInit : ∀ x, S.init x → Inv x)
    (hNext : ∀ x y, Inv x → S.next x y → Inv y)
    (hRaise : ∀ x y, Inv x → S.next x y → y = x ∨ measure x < measure y)
    (hBound : ∀ x, Inv x → measure x ≤ bound) : ∃ i, RestsFrom b i := by
  have hInv : ∀ i, Inv (b i) := h.always hInit hNext
  have hStep : ∀ i, b (i + 1) = b i ∨ measure (b i) < measure (b (i + 1)) := by
    intro i
    rcases h.step i with hNext | hSame
    · exact hRaise _ _ (hInv i) hNext
    · exact .inl hSame
  obtain ⟨i, hConstant⟩ := exists_constant_of_bounded (f := fun i => measure (b i))
    (fun i => by
      rcases hStep i with hSame | hlt
      · exact Nat.le_of_eq (congrArg measure hSame.symm)
      · exact Nat.le_of_lt hlt)
    (fun i => hBound _ (hInv i))
  refine ⟨i, fun j hj => ?_⟩
  induction j, hj using Nat.le_induction with
  | base => rfl
  | succ j hj ih =>
    rcases hStep j with hSame | hlt
    · exact hSame.trans ih
    · have hHere : measure (b j) = measure (b i) := hConstant j hj
      have hThere : measure (b (j + 1)) = measure (b i) := hConstant (j + 1) (by omega)
      omega

end Calvera.Lib
