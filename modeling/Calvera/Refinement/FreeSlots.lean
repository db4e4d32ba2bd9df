import Calvera.Refinement.Consumers

/-!
# Refinement — free slots

How many sequences could be claimed at a moment: the ring size less what is
claimed beyond the slowest consumer of any stage (`freeSlots`). The code asks
the consumers of the last stage only; run without interference, their barrier
answers the minimum over all stages (`consumerBarrier_run`).
-/

namespace Calvera

open Calvera.Lib Calvera.Protocol

variable {E P : Type} {R : RingSize} {T : Topology Nat} {w : Wiring} {m : Memory E}

/-- The minimum of all consumer cursors. -/
def minCursor (w : Wiring) (m : Memory E) : Int :=
  ((List.range w.consumers.length).map m.consumerCursors).min?.getD NONE

/-- The number of slots free to be claimed. -/
def freeSlots (R : RingSize) (w : Wiring) (m : Memory E) : Int :=
  R.size - (m.cursor - minCursor w m)

theorem le_minCursor_iff {producerBarrier : Barrier} (hWired : Wired T producerBarrier w) {v : Int} :
    v ≤ minCursor w m ↔ ∀ c ∈ T.members, v ≤ m.consumerCursors c := by
  have hMin : ∃ b, ((List.range w.consumers.length).map m.consumerCursors).min? = some b := by
    obtain ⟨c, hMem⟩ := T.nonempty
    have hlt := (hWired.mem_iff c).mp hMem
    rw [← Option.isSome_iff_exists, List.isSome_min?_iff]
    exact List.ne_nil_of_mem (List.mem_map_of_mem (List.mem_range.mpr hlt))
  obtain ⟨b, hMin⟩ := hMin
  rw [minCursor, hMin, Option.getD_some, List.le_min?_iff hMin]
  simp only [List.mem_map, List.mem_range, forall_exists_index, and_imp, forall_apply_eq_imp_iff₂,
    hWired.mem_iff]

namespace System.Consistent

variable {s : System P E} {producerBarrier : Barrier} {claimed : Int} {published : Set Int}

/-- The minimum lies between the start and the highest claim. -/
theorem minCursor_bounds (h : s.Consistent R T producerBarrier claimed published)
    (hWired : Wired T producerBarrier w) :
    NONE ≤ minCursor w s.memory ∧ minCursor w s.memory ≤ claimed ∧
      claimed ≤ minCursor w s.memory + R.size := by
  obtain ⟨c, hMem⟩ := T.nonempty
  have hLe : minCursor w s.memory ≤ s.memory.consumerCursors c :=
    (le_minCursor_iff hWired).mp (le_refl _) c hMem
  have hClaimed : s.memory.consumerCursors c ≤ claimed := h.inv.cursor_le_claimed hMem
  have hRoom : claimed - R.size ≤ minCursor w s.memory :=
    (le_minCursor_iff hWired).mpr fun c hMem => by
      have : claimed ≤ s.memory.consumerCursors c + R.size := h.inv.claimed_le hMem
      omega
  exact ⟨(le_minCursor_iff hWired).mpr fun c hMem => h.inv.cursor_ge c hMem, by omega, by omega⟩

/-- **The producer's barrier answers the minimum of all cursors**, when nothing
else moves. -/
theorem consumerBarrier_run (h : s.Consistent R T producerBarrier claimed published)
    (hWired : Wired T producerBarrier w) (q : Int) :
    ∃ fuel, (w.consumerBarrier.getAfter q).run R s.memory fuel = some (minCursor w s.memory) := by
  obtain ⟨fuel, v, hRun, hPassed, hMax⟩ :=
    getAfter_run hWired.consumerBarrier h.represents (q := q) (by omega)
  have hLe : v ≤ minCursor w s.memory :=
    (le_minCursor_iff hWired).mpr fun c hMem => h.inv.le_cursor hPassed hMem
  have hGe : minCursor w s.memory ≤ v := by
    refine hMax _ ((h.minCursor_bounds hWired).2.1.trans h.claimed_le) ?_
    exact h.inv.passed_iff.mpr fun c hMem => (le_minCursor_iff hWired).mp (le_refl _) c hMem
  obtain rfl := le_antisymm hLe hGe
  exact ⟨fuel, hRun⟩

end System.Consistent

-- ---------------------------------------------------------------------------
-- The last stage
-- ---------------------------------------------------------------------------

/-- The minimum cursor of the last stage. -/
def lastStageMin (chain : BuildChain) (m : Memory E) : Int :=
  ((stageMembers chain.stages chain.last).map m.consumerCursors).min?.getD NONE

/-- **The last stage is behind all others**, so its minimum is that of all cursors. -/
theorem System.Consistent.lastStageMin_eq {chain : BuildChain} {s : System P E}
    {producerBarrier : Barrier}
    {claimed : Int} {published : Set Int}
    (h : s.Consistent R chain.topology producerBarrier claimed published)
    (hWired : Wired chain.topology producerBarrier w) :
    lastStageMin chain s.memory = minCursor w s.memory := by
  obtain ⟨b, hMin⟩ : ∃ b, ((stageMembers chain.stages chain.last).map
      s.memory.consumerCursors).min? = some b := by
    rw [← Option.isSome_iff_exists, List.isSome_min?_iff]
    exact fun hNil => chain.stageMembers_ne_nil (le_refl _) (List.map_eq_nil_iff.mp hNil)
  -- both have the same lower bounds
  refine eq_of_forall_le_iff fun v => ?_
  have hPassed : (s.pipeline claimed published).Passed chain.topology (chain.topology.last + 1) v ↔
      ∀ c ∈ chain.topology.members, v ≤ s.memory.consumerCursors c := h.inv.passed_iff
  rw [le_minCursor_iff hWired, ← hPassed, lastStageMin, hMin, Option.getD_some,
    List.le_min?_iff hMin]
  simp only [List.mem_map, forall_exists_index, and_imp, BuildChain.mem_topology]
  exact ⟨fun hAll c hMem hStage => hAll _ c hMem hStage rfl,
    fun hAll b c hMem hStage hEq => hEq ▸ hAll c hMem hStage⟩

end Calvera
