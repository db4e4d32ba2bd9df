import Calvera.Code.Event

/-!
# Refinement — the claims of a run

The successful claims of a run tile the sequences `0..=claimed` without gap or
overlap (`Tiled`), so a sequence determines its claim. `valueAt` is the event a
sequence stands for: what the update of its claim makes of the event one round
before it.
-/

namespace Calvera

open Calvera.Lib

variable {E : Type} {R : RingSize} {factory : Nat → E} {cs : List (Claim E)} {claim : Claim E}
  {hi s : Int}

/-- The claims are consecutive blocks, from `0` to `hi`. -/
inductive Tiled : List (Claim E) → Int → Prop
  | nil : Tiled [] (-1)
  | snoc {cs : List (Claim E)} {hi : Int} {claim : Claim E} : Tiled cs hi →
      claim.lower = hi + 1 → hi ≤ claim.upper → Tiled (cs ++ [claim]) claim.upper

namespace Tiled

theorem ge (h : Tiled cs hi) : -1 ≤ hi := by
  induction h with
  | nil => exact le_refl _
  | snoc _ _ hle ih => exact ih.trans hle

/-- Claims lie within the tiled range. -/
theorem bounds (h : Tiled cs hi) (hMem : claim ∈ cs) : 0 ≤ claim.lower ∧ claim.upper ≤ hi := by
  induction h with
  | nil => simp at hMem
  | snoc hTiled hLower hle ih =>
    have := hTiled.ge
    rcases List.mem_append.mp hMem with hOld | hNew
    · have := ih hOld
      omega
    · obtain rfl := List.mem_singleton.mp hNew
      omega

/-- **Every sequence of the range belongs to a claim.** -/
theorem exists_claim (h : Tiled cs hi) (hlo : 0 ≤ s) (hhi : s ≤ hi) :
    ∃ claim ∈ cs, claim.Covers s := by
  induction h with
  | nil => omega
  | @snoc cs hi claim hTiled hLower hle ih =>
    by_cases hOld : s ≤ hi
    · obtain ⟨claim', hMem, hCovers⟩ := ih hOld
      exact ⟨claim', List.mem_append_left _ hMem, hCovers⟩
    · exact ⟨claim, List.mem_append_right _ (List.mem_singleton_self _), by
        unfold Claim.Covers
        omega⟩

/-- **Claims do not overlap**: later claims are above earlier ones. -/
theorem pairwise (h : Tiled cs hi) : cs.Pairwise fun c c' => c.upper < c'.lower := by
  induction h with
  | nil => exact .nil
  | snoc hTiled hLower hle ih =>
    refine List.pairwise_append.mpr ⟨ih, List.pairwise_singleton _ _, fun c hc c' hc' => ?_⟩
    obtain rfl := List.mem_singleton.mp hc'
    have := hTiled.bounds hc
    omega

/-- A sequence belongs to one claim only. -/
theorem unique (h : Tiled cs hi) {claim claim' : Claim E} (hMem : claim ∈ cs) (hMem' : claim' ∈ cs)
    (hCovers : claim.Covers s) (hCovers' : claim'.Covers s) : claim = claim' := by
  obtain ⟨hlo, hhi⟩ := hCovers
  obtain ⟨hlo', hhi'⟩ := hCovers'
  induction h with
  | nil => simp at hMem
  | snoc hTiled hLower hle ih =>
    rcases List.mem_append.mp hMem with hOld | hNew <;>
      rcases List.mem_append.mp hMem' with hOld' | hNew'
    · exact ih hOld hOld'
    · obtain rfl := List.mem_singleton.mp hNew'
      have := hTiled.bounds hOld
      omega
    · obtain rfl := List.mem_singleton.mp hNew
      have := hTiled.bounds hOld'
      omega
    · rw [List.mem_singleton.mp hNew, List.mem_singleton.mp hNew']

end Tiled

-- ---------------------------------------------------------------------------
-- Values
-- ---------------------------------------------------------------------------

/-- What the claim of sequence `s` does to the event in its slot. -/
def updateOf (cs : List (Claim E)) (s : Int) : E → E :=
  match cs.find? fun claim => decide (claim.lower ≤ s ∧ s ≤ claim.upper) with
  | some claim => claim.update (s - claim.lower).toNat
  | none => id

theorem Tiled.updateOf_eq (h : Tiled cs hi) (hMem : claim ∈ cs) (hCovers : claim.Covers s) :
    updateOf cs s = claim.update (s - claim.lower).toNat := by
  have hSome : (cs.find? fun claim => decide (claim.lower ≤ s ∧ s ≤ claim.upper)).isSome :=
    List.find?_isSome.mpr ⟨claim, hMem, by simpa [Claim.Covers] using hCovers⟩
  obtain ⟨claim', hFind⟩ := Option.isSome_iff_exists.mp hSome
  have hCovers' : claim'.Covers s := by
    have := List.find?_some hFind
    simpa [Claim.Covers] using this
  rw [updateOf, hFind, h.unique (List.mem_of_find?_eq_some hFind) hMem hCovers' hCovers]

/-- Later claims do not change what happened below them. -/
theorem Tiled.updateOf_append (h : Tiled cs hi) (cs' : List (Claim E)) (hlo : 0 ≤ s) (hhi : s ≤ hi) :
    updateOf (cs ++ cs') s = updateOf cs s := by
  obtain ⟨claim', hMem, hCovers⟩ := h.exists_claim hlo hhi
  have hSome : (cs.find? fun claim => decide (claim.lower ≤ s ∧ s ≤ claim.upper)).isSome :=
    List.find?_isSome.mpr ⟨claim', hMem, by simpa [Claim.Covers] using hCovers⟩
  obtain ⟨claim'', hFind⟩ := Option.isSome_iff_exists.mp hSome
  rw [updateOf, updateOf, List.find?_append, hFind, Option.some_or]

/-- The event sequence `s` stands for: its update applied to the event one
round before, starting from what the factory made for the slot. -/
def valueAt (R : RingSize) (factory : Nat → E) (cs : List (Claim E)) (s : Int) : E :=
  if s < 0 then factory (R.slot s) else updateOf cs s (valueAt R factory cs (s - R.size))
termination_by (s + 1).toNat
decreasing_by
  have := R.pos
  omega

theorem valueAt_neg (hs : s < 0) : valueAt R factory cs s = factory (R.slot s) := by
  rw [valueAt, if_pos hs]

theorem Tiled.valueAt_eq (h : Tiled cs hi) (hMem : claim ∈ cs) (hCovers : claim.Covers s) :
    valueAt R factory cs s =
      claim.update (s - claim.lower).toNat (valueAt R factory cs (s - R.size)) := by
  have hLower := (h.bounds hMem).1
  have hNonneg : ¬ s < 0 := by
    have := hCovers.1
    omega
  rw [valueAt, if_neg hNonneg, h.updateOf_eq hMem hCovers]

/-- Values do not change when more is claimed. -/
theorem Tiled.valueAt_append (h : Tiled cs hi) (cs' : List (Claim E)) (hs : s ≤ hi) :
    valueAt R factory (cs ++ cs') s = valueAt R factory cs s := by
  fun_induction valueAt R factory cs s with
  | case1 s hNeg => rw [valueAt_neg hNeg]
  | case2 s hNonneg ih =>
    have := R.pos
    rw [valueAt, if_neg hNonneg, h.updateOf_append cs' (by omega) hs, ih (by omega)]

end Calvera
