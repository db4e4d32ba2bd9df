import Calvera.Verification.SPMC
import Mathlib.Algebra.BigOperators.Group.Finset.Basic
import Mathlib.Algebra.Order.BigOperators.Group.Finset
import Mathlib.Data.Finset.Max

/-!
# Verification — where the specifications come to rest

Both specifications publish at most `MaxPublished` events, so every behaviour
comes to rest (`Spec.Behaviour.settles`). Where a fair behaviour rests no action
is enabled, and that leaves one possibility: everything is published, and every
reader has read it all in order (`SPMC.settled`, `MPMC.settled`).
-/

namespace Calvera.Verification

open Calvera.Lib

variable {Writer Reader : Type} {K : Constants Writer Reader}

/-- How many steps a participant with this cursor has taken. -/
def Pc.work (cursor : Int) (pc : Pc) : Nat :=
  2 * (cursor + 1).toNat + if pc = .advance then 1 else 0

/-- A participant that begins to access a slot has taken one step more. -/
theorem Pc.work_begin (cursor : Int) {pc pc' : Pc} (hPc : pc = .access) (hPc' : pc' = .advance) :
    pc.work cursor < pc'.work cursor := by
  simp [work, hPc, hPc']

/-- So has one that advances. -/
theorem Pc.work_end {cursor : Int} {pc pc' : Pc} (hCursor : -1 ≤ cursor) (hPc : pc = .advance)
    (hPc' : pc' = .access) : pc.work cursor < pc'.work (cursor + 1) := by
  simp [work, hPc, hPc']
  omega

theorem Pc.work_le {cursor : Int} {pc : Pc} {bound : Nat} (hCursor : cursor < bound) :
    pc.work cursor ≤ 2 * bound + 1 := by
  unfold work
  split <;> omega

/-- The steps all readers have taken. -/
def readersWork (K : Constants Writer Reader) (read : Reader → Int) (pc : Writer ⊕ Reader → Pc) :
    Nat :=
  ∑ r ∈ K.readers, (pc (.inr r)).work (read r)

/-- One reader takes a step. -/
theorem readersWork_lt {read read' : Reader → Int} {pc pc' : Writer ⊕ Reader → Pc} {reader : Reader}
    (hMem : reader ∈ K.readers)
    (hOwn : (pc (.inr reader)).work (read reader) < (pc' (.inr reader)).work (read' reader))
    (hOthers : ∀ r, r ≠ reader → read' r = read r ∧ pc' (.inr r) = pc (.inr r)) :
    readersWork K read pc < readersWork K read' pc' := by
  refine Finset.sum_lt_sum (fun r _ => ?_) ⟨reader, hMem, hOwn⟩
  rcases eq_or_ne r reader with rfl | hne
  · exact hOwn.le
  · rw [(hOthers r hne).1, (hOthers r hne).2]

theorem readersWork_le {read : Reader → Int} {pc : Writer ⊕ Reader → Pc} {bound : Nat}
    (hBound : ∀ r ∈ K.readers, read r < bound) :
    readersWork K read pc ≤ K.readers.card * (2 * bound + 1) := by
  have hSum := Finset.sum_le_card_nsmul K.readers (fun r => (pc (.inr r)).work (read r)) _
    fun r hr => Pc.work_le (hBound r hr)
  rwa [Nat.nsmul_eq_mul] at hSum

/-- Among the readers there is a slowest. -/
theorem exists_slowest (read : Reader → Int) {reader : Reader} (hMem : reader ∈ K.readers) :
    ∃ min, (∃ r ∈ K.readers, read r = min) ∧ ∀ r ∈ K.readers, min ≤ read r := by
  obtain ⟨r, hr, hMin⟩ := Finset.exists_min_image K.readers read ⟨reader, hMem⟩
  exact ⟨read r, ⟨r, hr, rfl⟩, hMin⟩

-- ---------------------------------------------------------------------------
-- A single producer
-- ---------------------------------------------------------------------------

namespace SPMC

variable {x x' : SPMC Writer Reader} {w : Writer} [DecidableEq Writer] [DecidableEq Reader]

/-- Every step is progress. -/
theorem Inv.work_lt (hInv : Inv K x) (hSingle : K.writers = {w}) (h : Next K x x') :
    (x.pc (.inl w)).work x.published + readersWork K x.read x.pc <
      (x'.pc (.inl w)).work x'.published + readersWork K x'.read x'.pc := by
  rcases h with ⟨w', hMem, h⟩ | ⟨w', hMem, h⟩ | ⟨r, hMem, h⟩ | ⟨r, hMem, h⟩
  · rw [hSingle, Set.mem_singleton_iff] at hMem
    obtain rfl := hMem
    obtain ⟨-, -, hPc, rfl⟩ := h
    have hOwn := Pc.work_begin x.published hPc rfl
    have hReaders : readersWork K x.read (Function.update x.pc (.inl w') .advance) =
        readersWork K x.read x.pc := rfl
    simp only [Function.update_self, hReaders]
    omega
  · rw [hSingle, Set.mem_singleton_iff] at hMem
    obtain rfl := hMem
    obtain ⟨hPc, rfl⟩ := h
    have hOwn := Pc.work_end hInv.bounds.1 hPc rfl
    have hReaders : readersWork K x.read (Function.update x.pc (.inl w') .access) =
        readersWork K x.read x.pc := rfl
    simp only [Function.update_self, hReaders]
    omega
  · obtain ⟨-, hPc, rfl⟩ := h
    have hLess : readersWork K x.read x.pc <
        readersWork K x.read (Function.update x.pc (.inr r) .advance) :=
      readersWork_lt hMem (by simpa using Pc.work_begin _ hPc rfl) fun r' hne => by simp [hne]
    simp only [ne_eq, reduceCtorEq, not_false_eq_true, Function.update_of_ne]
    omega
  · obtain ⟨hPc, rfl⟩ := h
    have hLess : readersWork K x.read x.pc < readersWork K
        (Function.update x.read r (x.read r + 1)) (Function.update x.pc (.inr r) .access) :=
      readersWork_lt hMem (by simpa using Pc.work_end (hInv.lap r hMem).1 hPc rfl)
        fun r' hne => by simp [hne]
    simp only [ne_eq, reduceCtorEq, not_false_eq_true, Function.update_of_ne]
    omega

/-- A behaviour comes to rest. -/
theorem rests {b : Nat → SPMC Writer Reader} (h : (spec K).Behaviour b) (hSingle : K.writers = {w}) :
    ∃ i, Inv K (b i) ∧ RestsFrom b i := by
  have hWriters : K.writers.Subsingleton := hSingle ▸ Set.subsingleton_singleton
  have hInit : ∀ x, (spec K).init x → Inv K x := fun x hx => hx ▸ .initial
  have hNext : ∀ x y, Inv K x → (spec K).next x y → Inv K y := fun x y hx => hx.next hWriters
  obtain ⟨i, hRest⟩ := h.settles
    (fun x => (x.pc (.inl w)).work x.published + readersWork K x.read x.pc)
    (2 * K.maxPublished + 1 + K.readers.card * (2 * K.maxPublished + 1)) hInit hNext
    (fun x y hx hxy => .inr (hx.work_lt hSingle hxy))
    (fun x hx => by
      have hTop := hx.bounds.2 _ (.inl (le_refl x.published))
      refine Nat.add_le_add (Pc.work_le hTop) (readersWork_le fun r hr => ?_)
      exact lt_of_le_of_lt (hx.lap r hr).2.1 hTop)
  exact ⟨i, h.always hInit hNext i, hRest⟩

/-- **Where no action is enabled, everything is read.** -/
theorem Inv.settled (hInv : Inv K x) {r : Reader} (hr : r ∈ K.readers)
    (hBeginWrite : ¬ Enabled (BeginWrite K w) x) (hEndWrite : ¬ Enabled (EndWrite K w) x)
    (hBeginRead : ∀ r ∈ K.readers, ¬ Enabled (BeginRead K r) x)
    (hEndRead : ∀ r ∈ K.readers, ¬ Enabled (EndRead K r) x) :
    x.consumed r = inOrder K.maxPublished := by
  have hChanged : ∀ {y : SPMC Writer Reader} {p : Writer ⊕ Reader}, y.pc p ≠ x.pc p → y ≠ x := by
    rintro y p hne rfl
    exact hne rfl
  have hOr : ∀ pc : Pc, pc ≠ .advance → pc = .access := by
    intro pc hne
    cases pc
    · rfl
    · exact (hne rfl).elim
  have hWriter : x.pc (.inl w) = .access := hOr _ fun hPc =>
    hEndWrite ⟨_, ⟨hPc, rfl⟩, hChanged (p := .inl w) (by simp [hPc])⟩
  have hReader : ∀ r ∈ K.readers, x.pc (.inr r) = .access := fun r hr => hOr _ fun hPc =>
    hEndRead r hr ⟨_, ⟨hPc, rfl⟩, hChanged (p := .inr r) (by simp [hPc])⟩
  -- the readers have caught up with the publisher
  have hRead : ∀ r ∈ K.readers, x.read r = x.published := by
    intro r hr
    have hle := (hInv.lap r hr).2.1
    by_contra hne
    refine hBeginRead r hr ⟨_, ⟨by omega, hReader r hr, rfl⟩, hChanged (p := .inr r) ?_⟩
    simp [hReader r hr]
  -- so the publisher waits for nobody
  have hAll : x.published + 1 = K.maxPublished := by
    have hTop := hInv.bounds.2 _ (.inl (le_refl x.published))
    by_contra hne
    obtain ⟨min, ⟨r', hr', hMin⟩, hSlowest⟩ := exists_slowest x.read hr
    refine hBeginWrite ⟨_, ⟨⟨min, ⟨⟨r', hr', hMin⟩, hSlowest⟩, ?_⟩, by omega, hWriter, rfl⟩,
      hChanged (p := .inl w) (by simp [hWriter])⟩
    have := hRead r' hr'
    have := K.pos
    omega
  rw [hInv.consumed r hr, begun, hRead r hr, hAll, hReader r hr]
  simp

end SPMC

-- ---------------------------------------------------------------------------
-- Many producers
-- ---------------------------------------------------------------------------

namespace MPMC

/-- `Fairness`. -/
structure Fairness [DecidableEq Writer] [DecidableEq Reader] (K : Constants Writer Reader)
    (b : Nat → MPMC Writer Reader) : Prop where
  beginWrite : ∀ w ∈ K.writers, WeaklyFair (BeginWrite K w) b
  endWrite : ∀ w ∈ K.writers, WeaklyFair (EndWrite K w) b
  beginRead : ∀ r ∈ K.readers, WeaklyFair (BeginRead K r) b
  endRead : ∀ r ∈ K.readers, WeaklyFair (EndRead K r) b

variable {x x' : MPMC Writer Reader}

/-- What the slots hold, and what the readers have read. -/
structure Reads (K : Constants Writer Reader) (x : MPMC Writer Reader) : Prop where
  inv : Inv K x
  bounds : 0 ≤ x.nextSequence ∧ x.nextSequence ≤ K.maxPublished
  read : ∀ r ∈ K.readers, -1 ≤ x.read r
  member : ∀ w, x.pc (.inl w) = .advance → w ∈ K.writers ∧ 0 ≤ x.claimedSequence w
  /-- A slot holds the last sequence claimed for it. -/
  slots : ∀ s, 0 ≤ s → s < x.nextSequence → x.nextSequence ≤ s + K.size →
    x.ringbuffer.slots (slotOf K.size s) = some s
  consumed : ∀ r ∈ K.readers, x.consumed r = inOrder (begun (x.read r) (x.pc (.inr r)))

namespace Reads

theorem initial : Reads K (initial : MPMC Writer Reader) := by
  refine ⟨.initial, ⟨le_refl _, Int.natCast_nonneg _⟩, fun _ _ => le_refl _, ?_, ?_, fun _ _ => rfl⟩
  · intro w hw
    cases hw
  · intro s hs hlt
    have hlt' : s < 0 := hlt
    omega

/-- What a reader has read was claimed. -/
theorem read_lt (h : Reads K x) {r : Reader} (hr : r ∈ K.readers) : x.read r < x.nextSequence :=
  ((h.inv.lap r hr).1.filled _ (le_refl _)).1

variable [DecidableEq Writer] [DecidableEq Reader]

theorem beginWrite (h : Reads K x) {writer : Writer} (hMem : writer ∈ K.writers)
    (hs : BeginWrite K writer x x') : Reads K x' := by
  have hInv := h.inv.beginWrite hs
  obtain ⟨-, hMax, hPc, rfl⟩ := hs
  have hBounds := h.bounds
  refine ⟨hInv, ⟨by show 0 ≤ x.nextSequence + 1; omega, hMax⟩, h.read, ?_, ?_, h.consumed⟩
  · intro w hw
    rcases eq_or_ne w writer with rfl | hne
    · exact ⟨hMem, by simpa using hBounds.1⟩
    · simpa [hne] using h.member w (by simpa [hne] using hw)
  · intro s hs hlt hLast
    have hlt' : s < x.nextSequence + 1 := hlt
    have hLast' : x.nextSequence + 1 ≤ s + K.size := hLast
    show Function.update x.ringbuffer.slots (slotOf K.size x.nextSequence) (some x.nextSequence)
      (slotOf K.size s) = some s
    rw [Function.update_apply]
    split
    · rename_i hSlot
      rw [slotOf_inj K.pos (by omega) (by omega) hSlot]
    · rename_i hSlot
      have hne : s ≠ x.nextSequence := fun hSame => hSlot (hSame ▸ rfl)
      exact h.slots s hs (by omega) (by omega)

theorem endWrite (h : Reads K x) {writer : Writer} (hs : EndWrite K writer x x') : Reads K x' := by
  have hInv := h.inv.endWrite hs
  obtain ⟨hPc, rfl⟩ := hs
  refine ⟨hInv, h.bounds, h.read, ?_, h.slots, h.consumed⟩
  intro w hw
  rcases eq_or_ne w writer with rfl | hne
  · exact h.member w hPc
  · exact h.member w (by simpa [hne] using hw)

theorem beginRead (h : Reads K x) {reader : Reader} (hMem : reader ∈ K.readers)
    (hs : BeginRead K reader x x') : Reads K x' := by
  have hInv := h.inv.beginRead hMem hs
  obtain ⟨hPublished, hPc, rfl⟩ := hs
  have hDone := (h.inv.isPublished_next hMem).mp hPublished
  have hRead := h.read reader hMem
  have hLap := (h.inv.lap reader hMem).2
  refine ⟨hInv, h.bounds, h.read, h.member, h.slots, ?_⟩
  intro r hr
  have hOld := h.consumed r hr
  rcases eq_or_ne r reader with rfl | hne
  · have hSlot := h.slots _ (by omega) hDone.1 (by omega)
    have hConsumed : Function.update x.consumed r (x.consumed r ++
        [x.ringbuffer.read (RingBuffer.indexOf K.size (x.read r + 1))]) r =
        x.consumed r ++ [some (x.read r + 1)] := by
      rw [Function.update_self, ← hSlot]
      rfl
    refine hConsumed.trans ?_
    have hNonneg : 0 ≤ x.read r + 1 := by omega
    simp [hOld, begun, hPc, inOrder_succ, Int.toNat_of_nonneg hNonneg]
  · simpa [hne] using hOld

theorem endRead (h : Reads K x) {reader : Reader} (hs : EndRead K reader x x') : Reads K x' := by
  have hInv := h.inv.endRead hs
  obtain ⟨hPc, rfl⟩ := hs
  refine ⟨hInv, h.bounds, ?_, h.member, h.slots, ?_⟩
  · intro r hr
    have hOld := h.read r hr
    rcases eq_or_ne r reader with rfl | hne
    · simp
      omega
    · simpa [hne] using hOld
  · intro r hr
    have hOld := h.consumed r hr
    have hRead := h.read r hr
    rcases eq_or_ne r reader with rfl | hne
    · have hBegun : begun (x.read r + 1) .access = begun (x.read r) .advance := by
        simp [begun]
        omega
      simpa [hPc, hBegun] using hOld
    · simpa [hne] using hOld

theorem next (h : Reads K x) (hNext : Next K x x') : Reads K x' := by
  rcases hNext with ⟨w, hMem, hs⟩ | ⟨w, -, hs⟩ | ⟨r, hMem, hs⟩ | ⟨r, -, hs⟩
  · exact h.beginWrite hMem hs
  · exact h.endWrite hs
  · exact h.beginRead hMem hs
  · exact h.endRead hs

end Reads

open Classical in
/-- How many sequences were written. -/
noncomputable def doneCount (x : MPMC Writer Reader) : Nat :=
  ((Finset.range x.nextSequence.toNat).filter fun i : Nat => (i : Int) ∈ x.done).card

theorem doneCount_le (h : Reads K x) : x.doneCount ≤ K.maxPublished := by
  classical
  have hBounds := h.bounds
  have hCard := Finset.card_filter_le (Finset.range x.nextSequence.toNat)
    fun i : Nat => (i : Int) ∈ x.done
  rw [Finset.card_range] at hCard
  unfold doneCount
  convert hCard.trans (by omega : x.nextSequence.toNat ≤ K.maxPublished)

theorem doneCount_mono (hNext : x.nextSequence ≤ x'.nextSequence) (hDone : x.done ⊆ x'.done) :
    x.doneCount ≤ x'.doneCount := by
  refine Finset.card_le_card fun i hi => ?_
  simp only [Finset.mem_filter, Finset.mem_range] at hi ⊢
  exact ⟨by omega, hDone hi.2⟩

theorem doneCount_lt (hNext : x.nextSequence ≤ x'.nextSequence) (hDone : x.done ⊆ x'.done) {s : Int}
    (hs : 0 ≤ s) (hOld : s ∉ x.done) (hNew : s ∈ x'.done) : x.doneCount < x'.doneCount := by
  obtain ⟨i, rfl⟩ := Int.eq_ofNat_of_zero_le hs
  have hlt : (i : Int) < x'.nextSequence := hNew.1
  refine Finset.card_lt_card ((Finset.ssubset_iff_of_subset fun j hj => ?_).mpr ⟨i, ?_, ?_⟩)
  · simp only [Finset.mem_filter, Finset.mem_range] at hj ⊢
    exact ⟨by omega, hDone hj.2⟩
  · simp only [Finset.mem_filter, Finset.mem_range]
    exact ⟨by omega, hNew⟩
  · simp only [Finset.mem_filter]
    exact fun hIn => hOld hIn.2

variable [DecidableEq Writer] [DecidableEq Reader]

/-- Every step is progress. -/
theorem Reads.work_lt (h : Reads K x) (hNext : Next K x x') :
    x.nextSequence.toNat + x.doneCount + readersWork K x.read x.pc <
      x'.nextSequence.toNat + x'.doneCount + readersWork K x'.read x'.pc := by
  have hNonneg := h.bounds.1
  rcases hNext with ⟨w, hMem, hs⟩ | ⟨w, hMem, hs⟩ | ⟨r, hMem, hs⟩ | ⟨r, hMem, hs⟩
  · obtain ⟨-, -, hPc, hEq⟩ := hs
    have hClaimed : x'.nextSequence = x.nextSequence + 1 := by rw [hEq]
    have hReaders : readersWork K x'.read x'.pc = readersWork K x.read x.pc := by rw [hEq]; rfl
    -- what is claimed now was not done
    have hDone : x.done ⊆ x'.done := by
      intro s hs
      refine ⟨by have := hs.1; omega, fun w' hw' => hs.2 w' ?_⟩
      subst hEq
      rcases eq_or_ne w' w with rfl | hne
      · have hSame : s = x.nextSequence := by simpa [Writing, eq_comm] using hw'
        have := hs.1
        omega
      · simpa [Writing, hne] using hw'
    have := doneCount_mono (by omega) hDone
    omega
  · obtain ⟨hPc, hEq⟩ := hs
    have hClaimed : x'.nextSequence = x.nextSequence := by rw [hEq]
    have hReaders : readersWork K x'.read x'.pc = readersWork K x.read x.pc := by rw [hEq]; rfl
    have hWriting : ∀ w' s, x'.Writing w' s → w' ≠ w ∧ x.Writing w' s := by
      intro w' s hw'
      subst hEq
      rcases eq_or_ne w' w with rfl | hne
      · simp [Writing] at hw'
      · exact ⟨hne, by simpa [Writing, hne] using hw'⟩
    have hOwn : x.Writing w (x.claimedSequence w) := ⟨hPc, rfl⟩
    have := doneCount_lt (s := x.claimedSequence w) (by omega)
      (fun s hs => ⟨by have := hs.1; omega, fun w' hw' => hs.2 w' (hWriting w' s hw').2⟩)
      (h.member w hPc).2 (fun hIn => hIn.2 w hOwn)
      ⟨by have := (h.inv.claimed w _ hOwn).1; omega, fun w' hw' =>
        (hWriting w' _ hw').1 (h.inv.unique w' w _ (hWriting w' _ hw').2 hOwn)⟩
    omega
  · obtain ⟨-, hPc, rfl⟩ := hs
    have hLess : readersWork K x.read x.pc <
        readersWork K x.read (Function.update x.pc (.inr r) .advance) :=
      readersWork_lt hMem (by simpa using Pc.work_begin _ hPc rfl) fun r' hne => by simp [hne]
    exact Nat.add_lt_add_left hLess _
  · obtain ⟨hPc, rfl⟩ := hs
    have hLess : readersWork K x.read x.pc < readersWork K
        (Function.update x.read r (x.read r + 1)) (Function.update x.pc (.inr r) .access) :=
      readersWork_lt hMem (by simpa using Pc.work_end (h.read r hMem) hPc rfl)
        fun r' hne => by simp [hne]
    exact Nat.add_lt_add_left hLess _

/-- A behaviour comes to rest. -/
theorem rests {b : Nat → MPMC Writer Reader} (h : (spec K).Behaviour b) :
    ∃ i, Reads K (b i) ∧ RestsFrom b i := by
  have hInit : ∀ x, (spec K).init x → Reads K x := fun x hx => hx ▸ .initial
  have hNext : ∀ x y, Reads K x → (spec K).next x y → Reads K y := fun x y hx => hx.next
  obtain ⟨i, hRest⟩ := h.settles
    (fun x => x.nextSequence.toNat + x.doneCount + readersWork K x.read x.pc)
    (K.maxPublished + K.maxPublished + K.readers.card * (2 * K.maxPublished + 1)) hInit hNext
    (fun x y hx hxy => .inr (hx.work_lt hxy))
    (fun x hx => by
      have hBounds := hx.bounds
      refine Nat.add_le_add (Nat.add_le_add (by omega) (doneCount_le hx))
        (readersWork_le fun r hr => ?_)
      have := hx.read_lt hr
      omega)
  exact ⟨i, h.always hInit hNext i, hRest⟩

/-- **Where no action is enabled, everything is read.** -/
theorem Reads.settled (h : Reads K x) {w : Writer} {r : Reader} (hr : r ∈ K.readers)
    (hBeginWrite : ¬ Enabled (BeginWrite K w) x)
    (hEndWrite : ∀ w ∈ K.writers, ¬ Enabled (EndWrite K w) x)
    (hBeginRead : ∀ r ∈ K.readers, ¬ Enabled (BeginRead K r) x)
    (hEndRead : ∀ r ∈ K.readers, ¬ Enabled (EndRead K r) x) :
    x.consumed r = inOrder K.maxPublished := by
  have hChanged : ∀ {y : MPMC Writer Reader} {p : Writer ⊕ Reader}, y.pc p ≠ x.pc p → y ≠ x := by
    rintro y p hne rfl
    exact hne rfl
  have hOr : ∀ pc : Pc, pc ≠ .advance → pc = .access := by
    intro pc hne
    cases pc
    · rfl
    · exact (hne rfl).elim
  have hWriter : ∀ w, x.pc (.inl w) = .access := fun w => hOr _ fun hPc =>
    hEndWrite w (h.member w hPc).1 ⟨_, ⟨hPc, rfl⟩, hChanged (p := .inl w) (by simp [hPc])⟩
  have hReader : ∀ r ∈ K.readers, x.pc (.inr r) = .access := fun r hr => hOr _ fun hPc =>
    hEndRead r hr ⟨_, ⟨hPc, rfl⟩, hChanged (p := .inr r) (by simp [hPc])⟩
  -- nobody writes, so the readers have caught up with the claims
  have hDone : ∀ s, s < x.nextSequence → s ∈ x.done := by
    intro s hs
    refine ⟨hs, fun w hw => ?_⟩
    cases (hWriter w).symm.trans hw.1
  have hRead : ∀ r ∈ K.readers, x.read r + 1 = x.nextSequence := by
    intro r hr
    have hlt := h.read_lt hr
    by_contra hne
    refine hBeginRead r hr ⟨_, ⟨(h.inv.isPublished_next hr).mpr (hDone _ (by omega)), hReader r hr,
      rfl⟩, hChanged (p := .inr r) ?_⟩
    simp [hReader r hr]
  -- so the publisher waits for nobody
  have hAll : x.nextSequence = K.maxPublished := by
    have hTop := h.bounds.2
    by_contra hne
    obtain ⟨min, ⟨r', hr', hMin⟩, hSlowest⟩ := exists_slowest x.read hr
    refine hBeginWrite ⟨_, ⟨⟨min, ⟨⟨r', hr', hMin⟩, hSlowest⟩, ?_⟩, by omega, hWriter w, rfl⟩,
      hChanged (p := .inl w) (by simp [hWriter w])⟩
    have := hRead r' hr'
    have := K.pos
    omega
  rw [h.consumed r hr, begun, hRead r hr, hAll, hReader r hr]
  simp

end MPMC

end Calvera.Verification
