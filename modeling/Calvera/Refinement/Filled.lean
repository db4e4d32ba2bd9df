import Calvera.Refinement.Multi
import Calvera.Refinement.Uni

/-!
# Refinement — what is published between calls

While no handle is between its claim and its publication, nothing is owed. The
sequences made available are then those up to the highest claim, all of them,
unless a `MultiProducer` closure unwound: `UniProducer` takes its claim back,
`MultiProducer` cannot.

* `UniInv.filled`       — one producer leaves no hole.
* `MultiInv.filled_iff` — many producers leave holes exactly where a closure
  unwound.
-/

namespace Calvera

open Calvera.Lib Calvera.Protocol

variable {E : Type} {R : RingSize} {T : Topology Nat} {tr : List (Event E)}

/-- The sequences made available are those from `0` up to `v`. -/
def Filled (tr : List (Event E)) (v : Int) : Prop := ∀ t, t ∈ flips tr ↔ 0 ≤ t ∧ t ≤ v

theorem Filled.length_eq {v : Int} (h : Filled tr v) (hNodup : (flips tr).Nodup) (hv : -1 ≤ v) :
    ((flips tr).length : Int) = v + 1 := by
  have hPerm : (flips tr).Perm (seqRange 0 v) :=
    (List.perm_ext_iff_of_nodup hNodup (nodup_seqRange 0 v)).mpr fun t =>
      (h t).trans mem_seqRange.symm
  rw [hPerm.length_eq, length_seqRange]
  omega

theorem Filled.published {v : Int} (h : Filled tr v) {t : Int} (ht : t ≤ v) :
    t ∈ publishedBy tr := by
  rw [mem_publishedBy, h t]
  omega

/-- The producer is between its claim and its publication. -/
def UniPc.holds : UniPc E → Bool
  | .update _ | .updates _ _ _ | .publish _ => true
  | _ => false

/-- The handle is between its claim and its publication. -/
def MultiPc.holds : MultiPc E → Bool
  | .update _ | .updates _ _ _ | .publish _ | .publishRange _ _ => true
  | _ => false

namespace UniInv

variable {s : UniSystem E}

/-- Outside of that, the producer has claimed what it published. -/
theorem claimed_eq (hInv : UniInv R T tr s) (hPc : s.producer.pc.holds = false) :
    s.producer.claimed = s.memory.cursor := by
  have hNone : s.producer.pc.inFlight = 0 := by
    unfold UniPc.inFlight
    split <;> rename_i hCase
    · simp [hCase, UniPc.holds] at hPc
    · simp [hCase, UniPc.holds] at hPc
    · simp [hCase, UniPc.holds] at hPc
    · rfl
  rw [UniProducer.claimed, hNone, hInv.cursor, Int.add_zero]

/-- **One producer leaves no hole**, whether its closures return or unwind. -/
theorem filled (hInv : UniInv R T tr s) : Filled tr s.memory.cursor := fun t => by
  rw [hInv.flipped, mem_seqRange, hInv.cursor]

theorem nodup (hInv : UniInv R T tr s) : (flips tr).Nodup :=
  hInv.flipped ▸ nodup_seqRange _ _

theorem cursor_ge (hInv : UniInv R T tr s) : -1 ≤ s.memory.cursor := by
  have := hInv.sequence
  rw [hInv.cursor]
  omega

end UniInv

namespace MultiInv

variable {s : MultiSystem E}

/-- A handle that is not between claim and publication owes nothing. -/
theorem not_owed {p : MultiProducer E} (hPc : p.pc.holds = false) (t : Int) :
    t ∉ p.owed (flips tr) := by
  rintro ⟨hIn, -⟩
  unfold MultiProducer.InFlight at hIn
  split at hIn <;> rename_i hCase
  all_goals first
    | exact hIn
    | simp [hCase, MultiPc.holds] at hPc

/-- **The holes are what was abandoned**: with nothing in flight, all claimed
sequences are published exactly when no closure unwound over one of them. -/
theorem filled_iff (hInv : MultiInv R T tr s) (hPc : ∀ h, (s.producer.handles h).pc.holds = false) :
    Filled tr s.memory.cursor ↔ ∀ t, ¬ Abandoned tr t := by
  constructor
  · intro hFilled t hLost
    have hBounds := hInv.ledger.lost_bounds t hLost
    exact (hInv.ledger.lost_fresh t hLost).1 ((hFilled t).mpr hBounds)
  · intro hNone t
    refine ⟨hInv.ledger.published_bounds t, fun ht => ?_⟩
    rcases hInv.ledger.covered t ht.1 ht.2 with hIn | ⟨h, hOwed⟩ | hLost
    · exact hIn
    · exact (not_owed (hPc h) t hOwed).elim
    · exact (hNone t hLost).elim

end MultiInv

end Calvera
