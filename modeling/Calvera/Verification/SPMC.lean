import Calvera.Lib.Fairness
import Calvera.Verification.MPMC

/-!
# Verification — a single producer, many consumers

`verification/Disruptor.tla`: the actions of the publishers and the consumers,
and `Init` and `Next`. The constants and the program counters are those of
`verification/MPMC.tla`.

With one publisher the actions keep the slots apart (`SPMC.Inv`), and every
consumer reads the sequences in order. The guard of `BeginWrite` asks for the
slowest consumer, so nothing is written without consumers.
-/

namespace Calvera.Verification

open Calvera.Lib

variable {Writer Reader : Type}

/-- How many events a reader has begun to read. -/
def begun (read : Int) (pc : Pc) : Nat := (read + 1).toNat + if pc = .advance then 1 else 0

/-- The first `n` sequences, as they were read: `[i \in 1..n |-> i - 1]`. -/
def inOrder (n : Nat) : List (Option Int) := (List.range n).map fun i : Nat => some (i : Int)

theorem inOrder_succ (n : Nat) : inOrder (n + 1) = inOrder n ++ [some (n : Int)] := by
  simp [inOrder, List.range_succ]

/-- The variables. -/
structure SPMC (Writer Reader : Type) where
  ringbuffer : RingBuffer Writer Reader
  /-- Publisher cursor. -/
  published : Int
  /-- Read cursors, one per consumer. -/
  read : Reader → Int
  /-- Sequence of all read events by the reader. -/
  consumed : Reader → List (Option Int)
  /-- Program counter of each writer/reader. -/
  pc : Writer ⊕ Reader → Pc

namespace SPMC

variable (K : Constants Writer Reader)

/-- `min` is `MinReadSequence`. -/
def IsMinReadSequence (x : SPMC Writer Reader) (min : Int) : Prop :=
  (∃ r ∈ K.readers, x.read r = min) ∧ ∀ r ∈ K.readers, min ≤ x.read r

section Actions

variable [DecidableEq Writer] [DecidableEq Reader]

/-- `BeginWrite(writer)`. -/
def BeginWrite (writer : Writer) (x x' : SPMC Writer Reader) : Prop :=
  let next := x.published + 1
  let index := RingBuffer.indexOf K.size next
  (∃ minRead, x.IsMinReadSequence K minRead ∧ next - K.size ≤ minRead) ∧
  next < K.maxPublished ∧
  x.pc (.inl writer) = .access ∧
  x' = { x with
    pc := Function.update x.pc (.inl writer) .advance
    ringbuffer := x.ringbuffer.write index writer next }

/-- `EndWrite(writer)`. -/
def EndWrite (writer : Writer) (x x' : SPMC Writer Reader) : Prop :=
  let next := x.published + 1
  let index := RingBuffer.indexOf K.size next
  x.pc (.inl writer) = .advance ∧
  x' = { x with
    pc := Function.update x.pc (.inl writer) .access
    ringbuffer := x.ringbuffer.endWrite index writer
    published := next }

/-- `BeginRead(reader)`. -/
def BeginRead (reader : Reader) (x x' : SPMC Writer Reader) : Prop :=
  let next := x.read reader + 1
  let index := RingBuffer.indexOf K.size next
  next ≤ x.published ∧
  x.pc (.inr reader) = .access ∧
  x' = { x with
    pc := Function.update x.pc (.inr reader) .advance
    ringbuffer := x.ringbuffer.beginRead index reader
    consumed :=
      Function.update x.consumed reader (x.consumed reader ++ [x.ringbuffer.read index]) }

/-- `EndRead(reader)`. -/
def EndRead (reader : Reader) (x x' : SPMC Writer Reader) : Prop :=
  let next := x.read reader + 1
  let index := RingBuffer.indexOf K.size next
  x.pc (.inr reader) = .advance ∧
  x' = { x with
    pc := Function.update x.pc (.inr reader) .access
    ringbuffer := x.ringbuffer.endRead index reader
    read := Function.update x.read reader next }

/-- `Next`. -/
def Next (x x' : SPMC Writer Reader) : Prop :=
  (∃ w ∈ K.writers, BeginWrite K w x x') ∨ (∃ w ∈ K.writers, EndWrite K w x x') ∨
    (∃ r ∈ K.readers, BeginRead K r x x') ∨ ∃ r ∈ K.readers, EndRead K r x x'

/-- `Fairness`. -/
structure Fairness (b : Nat → SPMC Writer Reader) : Prop where
  beginWrite : ∀ w ∈ K.writers, WeaklyFair (BeginWrite K w) b
  endWrite : ∀ w ∈ K.writers, WeaklyFair (EndWrite K w) b
  beginRead : ∀ r ∈ K.readers, WeaklyFair (BeginRead K r) b
  endRead : ∀ r ∈ K.readers, WeaklyFair (EndRead K r) b

end Actions

/-- The state that `Init` describes. -/
def initial : SPMC Writer Reader where
  ringbuffer := .init
  published := -1
  read _ := -1
  consumed _ := []
  pc _ := .access

/-- `Init` and `Next`. -/
def spec [DecidableEq Writer] [DecidableEq Reader] : Spec (SPMC Writer Reader) where
  init := (· = initial)
  next := Next K

-- ---------------------------------------------------------------------------
-- The invariant
-- ---------------------------------------------------------------------------

/-- `writer` is accessing a slot. -/
def Writing (x : SPMC Writer Reader) (writer : Writer) : Prop := x.pc (.inl writer) = .advance

/-- `s` was written, or is being written. -/
def Written (x : SPMC Writer Reader) (s : Int) : Prop :=
  s ≤ x.published ∨ s = x.published + 1 ∧ ∃ w, x.Writing w

/-- The invariant, for a single publisher. -/
structure Inv (x : SPMC Writer Reader) : Prop where
  writers : ∀ i w, w ∈ x.ringbuffer.writers i ↔
    x.Writing w ∧ slotOf K.size (x.published + 1) = i
  readers : ∀ i r, r ∈ x.ringbuffer.readers i ↔
    x.pc (.inr r) = .advance ∧ slotOf K.size (x.read r + 1) = i
  member : ∀ w, x.Writing w → w ∈ K.writers
  bounds : -1 ≤ x.published ∧ ∀ s, x.Written s → s < K.maxPublished
  /-- What is written is within one round of every reader. -/
  lap : ∀ r ∈ K.readers, -1 ≤ x.read r ∧ x.read r ≤ x.published ∧
    ∀ s, x.Written s → s ≤ x.read r + K.size
  reading : ∀ r, x.pc (.inr r) = .advance → r ∈ K.readers ∧ x.read r + 1 ≤ x.published
  /-- A slot holds the last sequence written to it. -/
  slots : ∀ s, 0 ≤ s → x.Written s → (∀ s', x.Written s' → s' < s + K.size) →
    x.ringbuffer.slots (slotOf K.size s) = some s
  consumed : ∀ r ∈ K.readers, x.consumed r = inOrder (begun (x.read r) (x.pc (.inr r)))

namespace Inv

variable {K} {x x' : SPMC Writer Reader}

theorem initial : Inv K (initial : SPMC Writer Reader) := by
  have hWritten : ∀ s, (SPMC.initial : SPMC Writer Reader).Written s ↔ s ≤ -1 := by
    intro s
    simp [Written, Writing, SPMC.initial]
  refine ⟨?_, ?_, ?_, ?_, ?_, ?_, ?_, ?_⟩
  · intro i w
    simp [SPMC.initial, RingBuffer.init, Writing]
  · intro i r
    simp [SPMC.initial, RingBuffer.init]
  · intro w hw
    cases hw
  · refine ⟨le_refl _, fun s hs => ?_⟩
    rw [hWritten] at hs
    omega
  · intro r _
    have := K.pos
    refine ⟨le_refl _, le_refl _, fun s hs => ?_⟩
    rw [hWritten] at hs
    show s ≤ (-1 : Int) + K.size
    omega
  · intro r hr
    cases hr
  · intro s hs hWrittenS
    rw [hWritten] at hWrittenS
    omega
  · intro r _
    rfl

/-- **No data races** with a single publisher. -/
theorem noDataRaces (hInv : Inv K x) (hSingle : K.writers.Subsingleton) :
    x.ringbuffer.NoDataRaces K.size := by
  intro i _
  constructor
  · by_contra hBoth
    rw [not_or, ← ne_eq, ← ne_eq, ← Finset.nonempty_iff_ne_empty, ← Finset.nonempty_iff_ne_empty]
      at hBoth
    obtain ⟨⟨r, hr⟩, w, hw⟩ := hBoth
    obtain ⟨hReading, hSlot⟩ := (hInv.readers i r).mp hr
    obtain ⟨hWriting, hSlot'⟩ := (hInv.writers i w).mp hw
    obtain ⟨hMem, hle⟩ := hInv.reading r hReading
    have hBound := (hInv.lap r hMem).2.2 _ (.inr ⟨rfl, w, hWriting⟩)
    -- the reader is at most one round behind what is being written
    have hSame : x.read r + 1 = x.published + 1 :=
      slotOf_inj K.pos (by omega) (by omega) (hSlot.trans hSlot'.symm)
    omega
  · rw [Finset.card_le_one]
    intro w hw w' hw'
    exact hSingle (hInv.member w ((hInv.writers i w).mp hw).1)
      (hInv.member w' ((hInv.writers i w').mp hw').1)

section Steps

variable [DecidableEq Writer] [DecidableEq Reader] {writer : Writer} {reader : Reader}

theorem beginWrite (hInv : Inv K x) (hSingle : K.writers.Subsingleton) (hMem : writer ∈ K.writers)
    (h : BeginWrite K writer x x') : Inv K x' := by
  obtain ⟨⟨minRead, ⟨-, hMin⟩, hClear⟩, hMax, hPc, hEq⟩ := h
  -- nobody else writes
  have hIdle : ∀ w, ¬ x.Writing w := by
    intro w hw
    obtain rfl := hSingle (hInv.member w hw) hMem
    cases hPc.symm.trans hw
  have hWriting : ∀ w, x'.Writing w ↔ w = writer := by
    intro w
    subst hEq
    rcases eq_or_ne w writer with rfl | hne
    · simp [Writing]
    · simpa [Writing, hne] using hIdle w
  have hPublished : x'.published = x.published := by rw [hEq]
  have hRead : x'.read = x.read := by rw [hEq]
  have hPcs : ∀ r, x'.pc (.inr r) = x.pc (.inr r) := fun r => by rw [hEq]; rfl
  have hOld : ∀ s, x.Written s ↔ s ≤ x.published := by
    intro s
    simp [Written, hIdle]
  have hNew : ∀ s, x'.Written s ↔ s ≤ x.published + 1 := by
    intro s
    simp only [Written, hPublished, hWriting, exists_eq, and_true]
    omega
  refine ⟨?_, ?_, ?_, ?_, ?_, ?_, ?_, ?_⟩
  · intro i w
    have hIn : w ∈ x'.ringbuffer.writers i ↔
        w = writer ∧ i = slotOf K.size (x.published + 1) ∨ w ∈ x.ringbuffer.writers i := by
      rw [hEq]
      exact RingBuffer.mem_write
    rw [hIn, hInv.writers, hWriting, hPublished]
    simp [hIdle, eq_comm]
  · intro i r
    have hSame : x'.ringbuffer.readers = x.ringbuffer.readers := by rw [hEq]; rfl
    rw [hSame, hPcs, hRead]
    exact hInv.readers i r
  · intro w hw
    rw [hWriting] at hw
    exact hw ▸ hMem
  · refine ⟨hPublished ▸ hInv.bounds.1, fun s hs => ?_⟩
    rw [hNew] at hs
    omega
  · intro r hr
    have := hMin r hr
    rw [hRead, hPublished]
    refine ⟨(hInv.lap r hr).1, (hInv.lap r hr).2.1, fun s hs => ?_⟩
    rw [hNew] at hs
    omega
  · intro r hr
    rw [hPcs] at hr
    rw [hRead, hPublished]
    exact hInv.reading r hr
  · intro s hs hWritten hLast
    have hSlots : x'.ringbuffer.slots = Function.update x.ringbuffer.slots
        (slotOf K.size (x.published + 1)) (some (x.published + 1)) := by
      rw [hEq]
      rfl
    have hTop := hLast (x.published + 1) ((hNew _).mpr (Int.le_refl _))
    rw [hNew] at hWritten
    rw [hSlots, Function.update_apply]
    split
    · rename_i hSlot
      rw [slotOf_inj K.pos (by omega) (by omega) hSlot]
    · rename_i hSlot
      have hne : s ≠ x.published + 1 := fun hSame => hSlot (hSame ▸ rfl)
      refine hInv.slots s hs ((hOld s).mpr (by omega)) fun s' hs' => ?_
      rw [hOld] at hs'
      omega
  · intro r hr
    have hConsumed : x'.consumed = x.consumed := by rw [hEq]
    rw [hConsumed, hRead, hPcs]
    exact hInv.consumed r hr

theorem endWrite (hInv : Inv K x) (hSingle : K.writers.Subsingleton)
    (h : EndWrite K writer x x') : Inv K x' := by
  obtain ⟨hPc, hEq⟩ := h
  have hIdle : ∀ w, ¬ x'.Writing w := by
    intro w hw
    subst hEq
    rcases eq_or_ne w writer with rfl | hne
    · simp [Writing] at hw
    · have hOld : x.Writing w := by simpa [Writing, hne] using hw
      exact hne (hSingle (hInv.member w hOld) (hInv.member writer hPc))
  have hPublished : x'.published = x.published + 1 := by rw [hEq]
  have hRead : x'.read = x.read := by rw [hEq]
  have hPcs : ∀ r, x'.pc (.inr r) = x.pc (.inr r) := fun r => by rw [hEq]; rfl
  -- the same sequences are written as before
  have hWritten : ∀ s, x'.Written s ↔ x.Written s := by
    intro s
    have hSome : ∃ w, x.Writing w := ⟨writer, hPc⟩
    simp only [Written, hPublished, hIdle, hSome, exists_false, and_false, or_false, and_true]
    omega
  refine ⟨?_, ?_, ?_, ?_, ?_, ?_, ?_, ?_⟩
  · intro i w
    have hIn : w ∈ x'.ringbuffer.writers i ↔
        ¬ (w = writer ∧ i = slotOf K.size (x.published + 1)) ∧ w ∈ x.ringbuffer.writers i := by
      rw [hEq]
      exact RingBuffer.mem_endWrite
    rw [hIn, hInv.writers]
    refine iff_of_false (fun ⟨hNot, hw, hSlot⟩ => hNot ⟨?_, hSlot.symm⟩) fun hw => hIdle w hw.1
    exact hSingle (hInv.member w hw) (hInv.member writer hPc)
  · intro i r
    have hSame : x'.ringbuffer.readers = x.ringbuffer.readers := by rw [hEq]; rfl
    rw [hSame, hPcs, hRead]
    exact hInv.readers i r
  · intro w hw
    exact (hIdle w hw).elim
  · refine ⟨?_, fun s hs => hInv.bounds.2 s ((hWritten s).mp hs)⟩
    have := hInv.bounds.1
    omega
  · intro r hr
    obtain ⟨hlo, hhi, hLap⟩ := hInv.lap r hr
    rw [hRead, hPublished]
    exact ⟨hlo, by omega, fun s hs => hLap s ((hWritten s).mp hs)⟩
  · intro r hr
    rw [hPcs] at hr
    obtain ⟨hMem, hle⟩ := hInv.reading r hr
    rw [hRead, hPublished]
    exact ⟨hMem, by omega⟩
  · intro s hs hWrittenS hLast
    have hSlots : x'.ringbuffer.slots = x.ringbuffer.slots := by rw [hEq]; rfl
    rw [hSlots]
    exact hInv.slots s hs ((hWritten s).mp hWrittenS) fun s' hs' => hLast s' ((hWritten s').mpr hs')
  · intro r hr
    have hConsumed : x'.consumed = x.consumed := by rw [hEq]
    rw [hConsumed, hRead, hPcs]
    exact hInv.consumed r hr

theorem beginRead (hInv : Inv K x) (hMem : reader ∈ K.readers) (h : BeginRead K reader x x') :
    Inv K x' := by
  obtain ⟨hAvailable, hPc, hEq⟩ := h
  have hWriting : x'.Writing = x.Writing := by rw [hEq]; rfl
  have hPublished : x'.published = x.published := by rw [hEq]
  have hRead : x'.read = x.read := by rw [hEq]
  have hWritten : x'.Written = x.Written := by
    funext s
    rw [Written, Written, hPublished, hWriting]
  obtain ⟨hlo, hhi, hLap⟩ := hInv.lap reader hMem
  refine ⟨?_, ?_, ?_, ?_, ?_, ?_, ?_, ?_⟩
  · intro i w
    have hSame : x'.ringbuffer.writers = x.ringbuffer.writers := by rw [hEq]; rfl
    rw [hSame, hWriting, hPublished]
    exact hInv.writers i w
  · intro i r
    have hIn : r ∈ x'.ringbuffer.readers i ↔
        r = reader ∧ i = slotOf K.size (x.read reader + 1) ∨ r ∈ x.ringbuffer.readers i := by
      rw [hEq]
      exact RingBuffer.mem_beginRead
    rw [hIn, hInv.readers]
    rcases eq_or_ne r reader with rfl | hne
    · simp [hEq, hPc, eq_comm]
    · simp [hEq, hne]
  · rw [hWriting]
    exact hInv.member
  · rw [hPublished, hWritten]
    exact hInv.bounds
  · rw [hRead, hPublished, hWritten]
    exact hInv.lap
  · intro r hr
    rw [hRead, hPublished]
    rcases eq_or_ne r reader with rfl | hne
    · exact ⟨hMem, hAvailable⟩
    · refine hInv.reading r ?_
      simpa [hEq, hne] using hr
  · rw [hWritten]
    have hSlots : x'.ringbuffer.slots = x.ringbuffer.slots := by rw [hEq]; rfl
    rw [hSlots]
    exact hInv.slots
  · intro r hr
    have hOld := hInv.consumed r hr
    rcases eq_or_ne r reader with rfl | hne
    · -- the slot still holds the sequence that is read
      have hSlot : x.ringbuffer.slots (slotOf K.size (x.read r + 1)) = some (x.read r + 1) := by
        refine hInv.slots _ (by omega) (.inl hAvailable) fun s' hs' => ?_
        have := hLap s' hs'
        omega
      have hBegun : begun (x.read r) (x.pc (.inr r)) = (x.read r + 1).toNat := by
        simp [begun, hPc]
      have hNow : begun (x'.read r) (x'.pc (.inr r)) = (x.read r + 1).toNat + 1 := by
        simp [begun, hEq]
      have hConsumed : x'.consumed r = x.consumed r ++ [some (x.read r + 1)] := by
        rw [hEq, ← hSlot]
        exact Function.update_self ..
      rw [hConsumed, hOld, hBegun, hNow, inOrder_succ, Int.toNat_of_nonneg (by omega)]
    · have hPcs : x'.pc (.inr r) = x.pc (.inr r) := by simp [hEq, hne]
      have hConsumed : x'.consumed r = x.consumed r := by
        rw [hEq]
        exact Function.update_of_ne hne ..
      rw [hConsumed, hRead, hPcs]
      exact hOld

theorem endRead (hInv : Inv K x) (h : EndRead K reader x x') : Inv K x' := by
  obtain ⟨hPc, hEq⟩ := h
  obtain ⟨hMem, hReading⟩ := hInv.reading reader hPc
  have hWriting : x'.Writing = x.Writing := by rw [hEq]; rfl
  have hPublished : x'.published = x.published := by rw [hEq]
  have hWritten : x'.Written = x.Written := by
    funext s
    rw [Written, Written, hPublished, hWriting]
  have hRead : ∀ r, x'.read r = if r = reader then x.read r + 1 else x.read r := by
    intro r
    rw [hEq]
    show Function.update x.read reader (x.read reader + 1) r = _
    rw [Function.update_apply]
    split
    · rename_i hSame
      rw [hSame]
    · rfl
  refine ⟨?_, ?_, ?_, ?_, ?_, ?_, ?_, ?_⟩
  · intro i w
    have hSame : x'.ringbuffer.writers = x.ringbuffer.writers := by rw [hEq]; rfl
    rw [hSame, hWriting, hPublished]
    exact hInv.writers i w
  · intro i r
    have hIn : r ∈ x'.ringbuffer.readers i ↔
        ¬ (r = reader ∧ i = slotOf K.size (x.read reader + 1)) ∧ r ∈ x.ringbuffer.readers i := by
      rw [hEq]
      exact RingBuffer.mem_endRead
    rw [hIn, hInv.readers, hRead]
    rcases eq_or_ne r reader with rfl | hne
    · refine iff_of_false (fun hOld => hOld.1 ⟨rfl, hOld.2.2.symm⟩) ?_
      simp [hEq]
    · simp [hEq, hne]
  · rw [hWriting]
    exact hInv.member
  · rw [hPublished, hWritten]
    exact hInv.bounds
  · intro r hr
    obtain ⟨hlo, hhi, hLap⟩ := hInv.lap r hr
    rw [hRead, hPublished, hWritten]
    split
    · rename_i hSame
      subst hSame
      refine ⟨by omega, hReading, fun s hs => ?_⟩
      have := hLap s hs
      omega
    · exact ⟨hlo, hhi, hLap⟩
  · intro r hr
    rcases eq_or_ne r reader with rfl | hne
    · simp [hEq] at hr
    · rw [hRead, if_neg hne, hPublished]
      refine hInv.reading r ?_
      simpa [hEq, hne] using hr
  · rw [hWritten]
    have hSlots : x'.ringbuffer.slots = x.ringbuffer.slots := by rw [hEq]; rfl
    rw [hSlots]
    exact hInv.slots
  · intro r hr
    have hConsumed : x'.consumed = x.consumed := by rw [hEq]
    have hBegun : begun (x'.read r) (x'.pc (.inr r)) = begun (x.read r) (x.pc (.inr r)) := by
      have := (hInv.lap r hr).1
      rw [begun, begun, hRead]
      rcases eq_or_ne r reader with rfl | hne
      · simp [hEq, hPc]
        omega
      · simp [hEq, hne]
    rw [hConsumed, hBegun]
    exact hInv.consumed r hr

theorem next (hInv : Inv K x) (hSingle : K.writers.Subsingleton) (h : Next K x x') : Inv K x' := by
  rcases h with ⟨w, hMem, h⟩ | ⟨w, -, h⟩ | ⟨r, hMem, h⟩ | ⟨r, -, h⟩
  · exact hInv.beginWrite hSingle hMem h
  · exact hInv.endWrite hSingle h
  · exact hInv.beginRead hMem h
  · exact hInv.endRead h

end Steps

end Inv

end SPMC

end Calvera.Verification
