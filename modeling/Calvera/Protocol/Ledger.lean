import Mathlib.Data.List.Nodup
import Mathlib.Data.Set.Basic

/-!
# Protocol — who owes which sequence

Several producers share one counter. Each claimed sequence is, at every moment,
either published, or still owed by the one producer that claimed it, or lost
because that producer gave up on it. A `Ledger` says that these three partition
`0..=claimed`; it is kept when a producer claims (`Ledger.claim`), publishes
some of what it owes (`Ledger.publish`), or gives up (`Ledger.lose`).
-/

namespace Calvera.Protocol

universe u

variable {H : Type u}

/-- Published, owed and lost sequences partition `0..=claimed`. -/
structure Ledger (published : List Int) (claimed : Int) (owed : H → Set Int) (lost : Set Int) :
    Prop where
  nodup : published.Nodup
  published_bounds : ∀ s ∈ published, 0 ≤ s ∧ s ≤ claimed
  owed_bounds : ∀ h, ∀ s ∈ owed h, 0 ≤ s ∧ s ≤ claimed
  owed_fresh : ∀ h, ∀ s ∈ owed h, s ∉ published
  owed_unique : ∀ h h' s, s ∈ owed h → s ∈ owed h' → h = h'
  lost_bounds : ∀ s ∈ lost, 0 ≤ s ∧ s ≤ claimed
  lost_fresh : ∀ s ∈ lost, s ∉ published ∧ ∀ h, s ∉ owed h
  covered : ∀ s, 0 ≤ s → s ≤ claimed → s ∈ published ∨ (∃ h, s ∈ owed h) ∨ s ∈ lost

namespace Ledger

variable {published : List Int} {claimed : Int} {owed owed' : H → Set Int} {lost lost' : Set Int}
  {h : H}

theorem init (hNone : ∀ h, owed h = ∅) : Ledger [] (-1) owed ∅ where
  nodup := List.nodup_nil
  published_bounds s hs := absurd hs List.not_mem_nil
  owed_bounds h s hs := by simp [hNone] at hs
  owed_fresh h s hs := List.not_mem_nil
  owed_unique h h' s hs := by simp [hNone] at hs
  lost_bounds s hs := hs.elim
  lost_fresh s hs := hs.elim
  covered s hlo hhi := by omega

/-- A producer claims the sequences up to `upper`. -/
theorem claim (hL : Ledger published claimed owed lost) {upper : Int} (hGe : -1 ≤ claimed)
    (hUpper : claimed ≤ upper) (hNew : ∀ s, s ∈ owed' h ↔ claimed < s ∧ s ≤ upper)
    (hNone : owed h = ∅) (hOther : ∀ h' ≠ h, owed' h' = owed h') :
    Ledger published upper owed' lost where
  nodup := hL.nodup
  published_bounds s hs := by
    have := hL.published_bounds s hs
    omega
  owed_bounds h' s hs := by
    rcases eq_or_ne h' h with rfl | hne
    · have := (hNew s).mp hs
      omega
    · have := hL.owed_bounds h' s (hOther h' hne ▸ hs)
      omega
  owed_fresh h' s hs := by
    rcases eq_or_ne h' h with rfl | hne
    · intro hOld
      have := (hNew s).mp hs
      have := hL.published_bounds s hOld
      omega
    · exact hL.owed_fresh h' s (hOther h' hne ▸ hs)
  owed_unique h₁ h₂ s hs₁ hs₂ := by
    rcases eq_or_ne h₁ h with rfl | hne₁
    · by_contra hne
      have := (hNew s).mp hs₁
      have := hL.owed_bounds h₂ s (hOther h₂ (Ne.symm hne) ▸ hs₂)
      omega
    · rcases eq_or_ne h₂ h with rfl | hne₂
      · have := (hNew s).mp hs₂
        have := hL.owed_bounds h₁ s (hOther h₁ hne₁ ▸ hs₁)
        omega
      · exact hL.owed_unique h₁ h₂ s (hOther h₁ hne₁ ▸ hs₁) (hOther h₂ hne₂ ▸ hs₂)
  lost_bounds s hs := by
    have := hL.lost_bounds s hs
    omega
  lost_fresh s hs := by
    refine ⟨(hL.lost_fresh s hs).1, fun h' hIn => ?_⟩
    rcases eq_or_ne h' h with rfl | hne
    · have := (hNew s).mp hIn
      have := hL.lost_bounds s hs
      omega
    · exact (hL.lost_fresh s hs).2 h' (hOther h' hne ▸ hIn)
  covered s hlo hhi := by
    by_cases hOld : s ≤ claimed
    · rcases hL.covered s hlo hOld with hPub | ⟨h', hOwed⟩ | hLost
      · exact .inl hPub
      · refine .inr (.inl ⟨h', ?_⟩)
        rwa [hOther h' (by rintro rfl; simp [hNone] at hOwed)]
      · exact .inr (.inr hLost)
    · exact .inr (.inl ⟨h, (hNew s).mpr ⟨by omega, hhi⟩⟩)

/-- A producer publishes some of what it owes. -/
theorem publish (hL : Ledger published claimed owed lost) {new : List Int} (hNodup : new.Nodup)
    (hOwed : ∀ s ∈ new, s ∈ owed h) (hRest : ∀ s, s ∈ owed' h ↔ s ∈ owed h ∧ s ∉ new)
    (hOther : ∀ h' ≠ h, owed' h' = owed h') : Ledger (published ++ new) claimed owed' lost := by
  have hLess : ∀ h', owed' h' ⊆ owed h' := by
    intro h' s hs
    rcases eq_or_ne h' h with rfl | hne
    · exact ((hRest s).mp hs).1
    · exact hOther h' hne ▸ hs
  refine
    { nodup := ?_
      published_bounds := fun s hs => ?_
      owed_bounds := fun h' s hs => hL.owed_bounds h' s (hLess h' hs)
      owed_fresh := fun h' s hs hIn => ?_
      owed_unique := fun h₁ h₂ s hs₁ hs₂ => hL.owed_unique h₁ h₂ s (hLess h₁ hs₁) (hLess h₂ hs₂)
      lost_bounds := hL.lost_bounds
      lost_fresh := fun s hs => ⟨fun hIn => ?_, fun h' hIn =>
        (hL.lost_fresh s hs).2 h' (hLess h' hIn)⟩
      covered := fun s hlo hhi => ?_ }
  · exact hL.nodup.append hNodup fun s hOld hNew => hL.owed_fresh h s (hOwed s hNew) hOld
  · rcases List.mem_append.mp hs with hOld | hNew
    · exact hL.published_bounds s hOld
    · exact hL.owed_bounds h s (hOwed s hNew)
  · rcases List.mem_append.mp hIn with hOld | hNew
    · exact hL.owed_fresh h' s (hLess h' hs) hOld
    · obtain rfl := hL.owed_unique h' h s (hLess h' hs) (hOwed s hNew)
      exact ((hRest s).mp hs).2 hNew
  · rcases List.mem_append.mp hIn with hOld | hNew
    · exact (hL.lost_fresh s hs).1 hOld
    · exact (hL.lost_fresh s hs).2 h (hOwed s hNew)
  · rcases hL.covered s hlo hhi with hPub | ⟨h', hIn⟩ | hLost
    · exact .inl (List.mem_append_left _ hPub)
    · rcases eq_or_ne h' h with rfl | hne
      · by_cases hNew : s ∈ new
        · exact .inl (List.mem_append_right _ hNew)
        · exact .inr (.inl ⟨h', (hRest s).mpr ⟨hIn, hNew⟩⟩)
      · exact .inr (.inl ⟨h', (hOther h' hne).symm ▸ hIn⟩)
    · exact .inr (.inr hLost)

/-- A producer gives up on all it owes. -/
theorem lose (hL : Ledger published claimed owed lost)
    (hLost : ∀ s, s ∈ lost' ↔ s ∈ lost ∨ s ∈ owed h) (hNone : owed' h = ∅)
    (hOther : ∀ h' ≠ h, owed' h' = owed h') : Ledger published claimed owed' lost' := by
  have hLess : ∀ h', owed' h' ⊆ owed h' := by
    intro h' s hs
    rcases eq_or_ne h' h with rfl | hne
    · simp [hNone] at hs
    · exact hOther h' hne ▸ hs
  refine
    { nodup := hL.nodup
      published_bounds := hL.published_bounds
      owed_bounds := fun h' s hs => hL.owed_bounds h' s (hLess h' hs)
      owed_fresh := fun h' s hs => hL.owed_fresh h' s (hLess h' hs)
      owed_unique := fun h₁ h₂ s hs₁ hs₂ => hL.owed_unique h₁ h₂ s (hLess h₁ hs₁) (hLess h₂ hs₂)
      lost_bounds := fun s hs => ((hLost s).mp hs).elim (hL.lost_bounds s) (hL.owed_bounds h s)
      lost_fresh := fun s hs => ?_
      covered := fun s hlo hhi => ?_ }
  · rcases (hLost s).mp hs with hOld | hOwed
    · exact ⟨(hL.lost_fresh s hOld).1, fun h' hIn => (hL.lost_fresh s hOld).2 h' (hLess h' hIn)⟩
    · refine ⟨hL.owed_fresh h s hOwed, fun h' hIn => ?_⟩
      obtain rfl := hL.owed_unique h' h s (hLess h' hIn) hOwed
      simp [hNone] at hIn
  · rcases hL.covered s hlo hhi with hPub | ⟨h', hIn⟩ | hOld
    · exact .inl hPub
    · rcases eq_or_ne h' h with rfl | hne
      · exact .inr (.inr ((hLost s).mpr (.inr hIn)))
      · exact .inr (.inl ⟨h', (hOther h' hne).symm ▸ hIn⟩)
    · exact .inr (.inr ((hLost s).mpr (.inl hOld)))

end Ledger

end Calvera.Protocol
