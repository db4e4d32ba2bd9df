import Calvera.Lib.Ring
import Mathlib.Logic.Function.Basic

/-!
# Values in a ring that is updated in place

Each slot of a ring holds the value of the last sequence that was written to
it. The sequences of the last round up to `claimed` are either written, and
then the slot holds their value, or pending, and then it still holds the value
of the sequence one round before. This is kept when a pending sequence is
written (`InPlace.write`) and when more sequences become pending in slots that
are not pending (`InPlace.claim`).
-/

namespace Calvera.Lib

universe u

variable {V : Type u} {size : Nat} {slots : Nat → V} {claimed upper u : Int} {pending : Set Int}
  {value value' : Int → V}

/-- What the slots of a ring hold. -/
structure InPlace (size : Nat) (slots : Nat → V) (claimed : Int) (pending : Set Int)
    (value : Int → V) : Prop where
  window : ∀ t ∈ pending, claimed - size < t ∧ t ≤ claimed
  written : ∀ t, claimed - size < t → t ≤ claimed → t ∉ pending → slots (slotOf size t) = value t
  before : ∀ t ∈ pending, slots (slotOf size t) = value (t - size)

namespace InPlace

/-- Only the values up to `claimed` matter. -/
theorem congr (h : InPlace size slots claimed pending value)
    (hSame : ∀ t ≤ claimed, value t = value' t) : InPlace size slots claimed pending value' where
  window := h.window
  written t hlo hhi hNot := (h.written t hlo hhi hNot).trans (hSame t hhi)
  before t ht := (h.before t ht).trans (hSame _ (by have := h.window t ht; omega))

/-- **Writing** the value of a pending sequence, made from what its slot holds. -/
theorem write (h : InPlace size slots claimed pending value) (hSize : 0 < size) (hu : u ∈ pending)
    {f : V → V} (hValue : value u = f (value (u - size))) :
    InPlace size (Function.update slots (slotOf size u) (f (slots (slotOf size u)))) claimed
      (pending \ {u}) value := by
  obtain ⟨huLo, huHi⟩ := h.window u hu
  -- within one round, another sequence has another slot
  have hOther : ∀ t, claimed - size < t → t ≤ claimed → t ≠ u →
      Function.update slots (slotOf size u) (f (slots (slotOf size u))) (slotOf size t) =
        slots (slotOf size t) := by
    intro t hlo hhi hne
    refine Function.update_of_ne (fun hSlot => hne ?_) _ _
    exact slotOf_inj hSize (by omega) (by omega) hSlot
  refine ⟨fun t ht => h.window t ht.1, ?_, ?_⟩
  · intro t hlo hhi hNot
    by_cases hEq : t = u
    · subst hEq
      rw [Function.update_self, h.before t hu, hValue]
    · rw [hOther t hlo hhi hEq]
      exact h.written t hlo hhi fun ht => hNot ⟨ht, hEq⟩
  · intro t ht
    obtain ⟨hlo, hhi⟩ := h.window t ht.1
    rw [hOther t hlo hhi ht.2]
    exact h.before t ht.1

/-- **Claiming** more sequences: their slots still hold the values of the round
before, which must be written by then. -/
theorem claim (h : InPlace size slots claimed pending value) (hle : claimed ≤ upper)
    (hRoom : upper ≤ claimed + size) (hDone : ∀ t ∈ pending, upper - size < t) :
    InPlace size slots upper (pending ∪ {t | claimed < t ∧ t ≤ upper}) value := by
  refine ⟨?_, ?_, ?_⟩
  · intro t ht
    rcases ht with ht | ⟨hlo, hhi⟩
    · have := h.window t ht
      exact ⟨hDone t ht, by omega⟩
    · exact ⟨by omega, hhi⟩
  · intro t hlo hhi hNot
    have hOld : t ≤ claimed := by
      by_contra hgt
      exact hNot (.inr ⟨by omega, hhi⟩)
    exact h.written t (by omega) hOld fun ht => hNot (.inl ht)
  · intro t ht
    rcases ht with ht | ⟨hlo, hhi⟩
    · exact h.before t ht
    · have hBefore := h.written (t - size) (by omega) (by omega) fun ht => by
        have := hDone _ ht
        omega
      rwa [slotOf_sub_size] at hBefore

end InPlace

end Calvera.Lib
