import Calvera.Lib.Spec
import Calvera.Verification.RingBuffer

/-!
# Verification — many producers, many consumers

`verification/MPMC.tla`: the actions of the publishers and the consumers, and
`Init` and `Next`. The model checker verifies `NoDataRaces` for small constants;
here it is an invariant for all (`MPMC.spec_noDataRaces`).

What carries it: seen from every reader, the sequences that are claimed and not
being written fill everything up to the cursor and stay within one round of it
(`MPMC.Inv`), so the flag of a slot tells whether the next sequence is published.
-/

namespace Calvera.Verification

open Calvera.Lib

variable {Writer Reader : Type}

/-- The constants. -/
structure Constants (Writer Reader : Type) where
  /-- Writer/publisher thread ids. -/
  writers : Set Writer
  /-- Reader/consumer thread ids. -/
  readers : Finset Reader
  /-- Max number of published events. -/
  maxPublished : Nat
  /-- Ringbuffer size. -/
  size : Nat
  pos : 0 < size

/-- Each publisher/consumer is either accessing a slot or advancing to the next. -/
inductive Pc where
  | access
  | advance
  deriving DecidableEq

/-- `Xor(A, B)`. -/
def Xor (a b : Bool) : Bool := a == !b

@[simp] theorem xor_true (b : Bool) : Xor true b = !b := by
  cases b <;> rfl

/-- The variables. -/
structure MPMC (Writer Reader : Type) where
  ringbuffer : RingBuffer Writer Reader
  /-- Shared counter for claiming a sequence for a writer. -/
  nextSequence : Int
  /-- Claimed sequence by each writer. -/
  claimedSequence : Writer → Int
  /-- Encodes whether each slot is published. -/
  published : Nat → Bool
  /-- Read cursors, one per reader. -/
  read : Reader → Int
  /-- Sequence of all read events by the reader. -/
  consumed : Reader → List (Option Int)
  /-- Program counter of each writer/reader. -/
  pc : Writer ⊕ Reader → Pc

namespace MPMC

variable (K : Constants Writer Reader)

/-- `min` is `MinReadSequence`. -/
def IsMinReadSequence (x : MPMC Writer Reader) (min : Int) : Prop :=
  (∃ r ∈ K.readers, x.read r = min) ∧ ∀ r ∈ K.readers, min ≤ x.read r

/-- `IsPublished(sequence)`. -/
def IsPublished (x : MPMC Writer Reader) (sequence : Int) : Prop :=
  let index := RingBuffer.indexOf K.size sequence
  let round := sequence / K.size
  let isEven := decide (round % 2 = 0)
  x.published index = isEven

/-- `published'` after `Publish(sequence)`. -/
def publish (x : MPMC Writer Reader) (sequence : Int) : Nat → Bool :=
  let index := RingBuffer.indexOf K.size sequence
  Function.update x.published index (Xor true (x.published index))

section Actions

variable [DecidableEq Writer] [DecidableEq Reader]

/-- `BeginWrite(writer)`. -/
def BeginWrite (writer : Writer) (x x' : MPMC Writer Reader) : Prop :=
  let seq := x.nextSequence
  let index := RingBuffer.indexOf K.size seq
  (∃ minRead, x.IsMinReadSequence K minRead ∧ seq - K.size ≤ minRead) ∧
  seq < K.maxPublished ∧
  x.pc (.inl writer) = .access ∧
  x' = { x with
    claimedSequence := Function.update x.claimedSequence writer seq
    nextSequence := seq + 1
    pc := Function.update x.pc (.inl writer) .advance
    ringbuffer := x.ringbuffer.write index writer seq }

/-- `EndWrite(writer)`. -/
def EndWrite (writer : Writer) (x x' : MPMC Writer Reader) : Prop :=
  let seq := x.claimedSequence writer
  let index := RingBuffer.indexOf K.size seq
  x.pc (.inl writer) = .advance ∧
  x' = { x with
    pc := Function.update x.pc (.inl writer) .access
    ringbuffer := x.ringbuffer.endWrite index writer
    published := x.publish K seq }

/-- `BeginRead(reader)`. -/
def BeginRead (reader : Reader) (x x' : MPMC Writer Reader) : Prop :=
  let next := x.read reader + 1
  let index := RingBuffer.indexOf K.size next
  x.IsPublished K next ∧
  x.pc (.inr reader) = .access ∧
  x' = { x with
    pc := Function.update x.pc (.inr reader) .advance
    ringbuffer := x.ringbuffer.beginRead index reader
    consumed :=
      Function.update x.consumed reader (x.consumed reader ++ [x.ringbuffer.read index]) }

/-- `EndRead(reader)`. -/
def EndRead (reader : Reader) (x x' : MPMC Writer Reader) : Prop :=
  let next := x.read reader + 1
  let index := RingBuffer.indexOf K.size next
  x.pc (.inr reader) = .advance ∧
  x' = { x with
    pc := Function.update x.pc (.inr reader) .access
    ringbuffer := x.ringbuffer.endRead index reader
    read := Function.update x.read reader next }

/-- `Next`. -/
def Next (x x' : MPMC Writer Reader) : Prop :=
  (∃ w ∈ K.writers, BeginWrite K w x x') ∨ (∃ w ∈ K.writers, EndWrite K w x x') ∨
    (∃ r ∈ K.readers, BeginRead K r x x') ∨ ∃ r ∈ K.readers, EndRead K r x x'

end Actions

/-- The actions by name. -/
inductive Action (Writer Reader : Type) where
  | beginWrite (writer : Writer)
  | endWrite (writer : Writer)
  | beginRead (reader : Reader)
  | endRead (reader : Reader)

/-- What an action does, guards included. -/
def Action.Does [DecidableEq Writer] [DecidableEq Reader] (x x' : MPMC Writer Reader) :
    Action Writer Reader → Prop
  | .beginWrite w => w ∈ K.writers ∧ BeginWrite K w x x'
  | .endWrite w => w ∈ K.writers ∧ EndWrite K w x x'
  | .beginRead r => r ∈ K.readers ∧ BeginRead K r x x'
  | .endRead r => r ∈ K.readers ∧ EndRead K r x x'

/-- The state that `Init` describes. -/
def initial : MPMC Writer Reader where
  ringbuffer := .init
  nextSequence := 0
  claimedSequence _ := -1
  published _ := false
  read _ := -1
  consumed _ := []
  pc _ := .access

/-- `Init` and `Next`. -/
def spec [DecidableEq Writer] [DecidableEq Reader] : Spec (MPMC Writer Reader) where
  init := (· = initial)
  next := Next K

-- ---------------------------------------------------------------------------
-- The invariant
-- ---------------------------------------------------------------------------

/-- `writer` is writing at `s`. -/
def Writing (x : MPMC Writer Reader) (writer : Writer) (s : Int) : Prop :=
  x.pc (.inl writer) = .advance ∧ x.claimedSequence writer = s

/-- The sequences that are claimed and not being written any more. -/
def done (x : MPMC Writer Reader) : Set Int :=
  {s | s < x.nextSequence ∧ ∀ w, ¬ x.Writing w s}

/-- The invariant. -/
structure Inv (x : MPMC Writer Reader) : Prop where
  writers : ∀ i w, w ∈ x.ringbuffer.writers i ↔
    x.pc (.inl w) = .advance ∧ slotOf K.size (x.claimedSequence w) = i
  readers : ∀ i r, r ∈ x.ringbuffer.readers i ↔
    x.pc (.inr r) = .advance ∧ slotOf K.size (x.read r + 1) = i
  /-- Writers write within one round of the shared counter. -/
  claimed : ∀ w s, x.Writing w s → s < x.nextSequence ∧ x.nextSequence ≤ s + K.size
  unique : ∀ w w' s, x.Writing w s → x.Writing w' s → w = w'
  /-- What a reader has read is done, and no claim is a round ahead of it. -/
  lap : ∀ r ∈ K.readers, Lap K.size x.done (x.read r) ∧ x.nextSequence ≤ x.read r + K.size + 1
  reading : ∀ r, x.pc (.inr r) = .advance → r ∈ K.readers ∧ x.read r + 1 ∈ x.done
  encodes : Encodes K.size (fun i => !x.published i) x.done

variable {K} {x x' : MPMC Writer Reader}

theorem Action.Does.next [DecidableEq Writer] [DecidableEq Reader] {action : Action Writer Reader}
    (h : action.Does K x x') : Next K x x' := by
  cases action with
  | beginWrite w => exact .inl ⟨w, h⟩
  | endWrite w => exact .inr (.inl ⟨w, h⟩)
  | beginRead r => exact .inr (.inr (.inl ⟨r, h⟩))
  | endRead r => exact .inr (.inr (.inr ⟨r, h⟩))

/-- `IsPublished` compares the flag of the slot with the parity of the round. -/
theorem isPublished_iff {s : Int} :
    x.IsPublished K s ↔ (!x.published (slotOf K.size s)) = oddRound K.size s := by
  have hParity : decide (s / K.size % 2 = 0) = !oddRound K.size s := by
    unfold oddRound
    rcases Int.emod_two_eq_zero_or_one (s / K.size) with h | h <;> simp [h]
  unfold IsPublished
  simp only [RingBuffer.indexOf_eq, hParity]
  cases x.published (slotOf K.size s) <;> cases oddRound K.size s <;> simp

namespace Inv

theorem initial : Inv K (initial : MPMC Writer Reader) := by
  have hDone : (MPMC.initial : MPMC Writer Reader).done = {s | s < 0} := by
    ext s
    simp [done, Writing, MPMC.initial]
  refine ⟨?_, ?_, ?_, ?_, ?_, ?_, ?_⟩
  · intro i w
    simp [MPMC.initial, RingBuffer.init]
  · intro i r
    simp [MPMC.initial, RingBuffer.init]
  · intro w s hs
    cases hs.1
  · intro w w' s hs
    cases hs.1
  · intro r _
    have := K.pos
    rw [hDone]
    refine ⟨⟨?_, ?_⟩, ?_⟩
    · intro s hs
      show s < 0
      have hs' : s ≤ -1 := hs
      omega
    · intro s hs
      have hs' : s < 0 := hs
      show s ≤ -1 + (K.size : Int)
      omega
    · show (0 : Int) ≤ -1 + K.size + 1
      omega
  · intro r hr
    cases hr
  · rw [hDone]
    exact encodes_init

/-- The oldest sequence of the last round may still be written, and nothing
before it. -/
theorem round (hInv : Inv K x) : Lap K.size x.done (x.nextSequence - 1 - K.size) where
  filled s hs := by
    have := K.pos
    refine ⟨by omega, fun w hw => ?_⟩
    have := (hInv.claimed w s hw).2
    omega
  bounded s hs := by
    have hlt : s < x.nextSequence := hs.1
    omega

/-- A writer is ahead of every reader. -/
theorem read_lt (hInv : Inv K x) {w : Writer} {s : Int} (hw : x.Writing w s) {r : Reader}
    (hr : r ∈ K.readers) : x.read r < s := by
  by_contra hle
  have hDone := (hInv.lap r hr).1.filled s (Int.not_lt.mp hle)
  exact hDone.2 w hw

/-- **The guard of `BeginRead` is exact.** -/
theorem isPublished_next (hInv : Inv K x) {r : Reader} (hr : r ∈ K.readers) :
    x.IsPublished K (x.read r + 1) ↔ x.read r + 1 ∈ x.done := by
  have := K.pos
  rw [isPublished_iff]
  exact hInv.encodes.bit_iff K.pos (hInv.lap r hr).1 (by omega) (by omega)

/-- **No data races** while the invariant holds. -/
theorem noDataRaces (hInv : Inv K x) : x.ringbuffer.NoDataRaces K.size := by
  intro i _
  constructor
  · by_contra hBoth
    rw [not_or, ← ne_eq, ← ne_eq, ← Finset.nonempty_iff_ne_empty, ← Finset.nonempty_iff_ne_empty]
      at hBoth
    obtain ⟨⟨r, hr⟩, w, hw⟩ := hBoth
    obtain ⟨hReading, hSlot⟩ := (hInv.readers i r).mp hr
    obtain ⟨hWriting, hSlot'⟩ := (hInv.writers i w).mp hw
    obtain ⟨hMem, hDone⟩ := hInv.reading r hReading
    have hw' : x.Writing w (x.claimedSequence w) := ⟨hWriting, rfl⟩
    have hlt := hInv.read_lt hw' hMem
    have hBound := (hInv.claimed w _ hw').1
    have hLap := (hInv.lap r hMem).2
    -- both are within the round behind the reader, in the same slot
    have hSame : x.read r + 1 = x.claimedSequence w :=
      slotOf_inj K.pos (by omega) (by omega) (hSlot.trans hSlot'.symm)
    exact hDone.2 w ⟨hWriting, hSame.symm⟩
  · rw [Finset.card_le_one]
    intro w hw w' hw'
    obtain ⟨hWriting, hSlot⟩ := (hInv.writers i w).mp hw
    obtain ⟨hWriting', hSlot'⟩ := (hInv.writers i w').mp hw'
    have hBounds := hInv.claimed w _ ⟨hWriting, rfl⟩
    have hBounds' := hInv.claimed w' _ ⟨hWriting', rfl⟩
    have hSame : x.claimedSequence w = x.claimedSequence w' :=
      slotOf_inj K.pos (by omega) (by omega) (hSlot.trans hSlot'.symm)
    exact hInv.unique w w' _ ⟨hWriting, rfl⟩ ⟨hWriting', hSame.symm⟩

section Steps

variable [DecidableEq Writer] [DecidableEq Reader] {writer : Writer} {reader : Reader}

theorem beginWrite (hInv : Inv K x) (h : BeginWrite K writer x x') : Inv K x' := by
  obtain ⟨⟨minRead, ⟨⟨r₀, hr₀, -⟩, hMin⟩, hClear⟩, -, hPc, hEq⟩ := h
  have hIdle : ∀ s, ¬ x.Writing writer s := fun s hs => nomatch hPc.symm.trans hs.1
  have hWriting : ∀ w s, x'.Writing w s ↔ w = writer ∧ s = x.nextSequence ∨ x.Writing w s := by
    intro w s
    subst hEq
    rcases eq_or_ne w writer with rfl | hne
    · simp [Writing, hPc, eq_comm]
    · simp [Writing, hne]
  have hNext : x'.nextSequence = x.nextSequence + 1 := by rw [hEq]
  have hRead : x'.read = x.read := by rw [hEq]
  have hPcs : ∀ r, x'.pc (.inr r) = x.pc (.inr r) := fun r => by rw [hEq]; rfl
  -- the new claim is not done, so nothing changes
  have hDone : x'.done = x.done := by
    ext s
    simp only [done, Set.mem_ofPred_eq, hNext, hWriting]
    refine ⟨fun ⟨hlt, hNot⟩ => ⟨?_, fun w hw => hNot w (.inr hw)⟩, fun ⟨hlt, hNot⟩ => ⟨by omega, ?_⟩⟩
    · have hne : s ≠ x.nextSequence := fun hSame => hNot writer (.inl ⟨rfl, hSame⟩)
      omega
    · rintro w (⟨-, rfl⟩ | hw)
      · omega
      · exact hNot w hw
  refine ⟨?_, ?_, ?_, ?_, ?_, ?_, ?_⟩
  · intro i w
    have hMem : w ∈ x'.ringbuffer.writers i ↔
        w = writer ∧ i = slotOf K.size x.nextSequence ∨ w ∈ x.ringbuffer.writers i := by
      rw [hEq]
      exact RingBuffer.mem_write
    rw [hMem, hInv.writers]
    rcases eq_or_ne w writer with rfl | hne
    · simp [hEq, hPc, eq_comm]
    · simp [hEq, hne]
  · intro i r
    have hSame : x'.ringbuffer.readers = x.ringbuffer.readers := by rw [hEq]; rfl
    rw [hSame, hPcs, hRead]
    exact hInv.readers i r
  · intro w s hw
    rw [hNext]
    rcases (hWriting w s).mp hw with ⟨rfl, rfl⟩ | hOld
    · have := K.pos
      omega
    · have := hInv.claimed w s hOld
      have := hInv.read_lt hOld hr₀
      have := hMin r₀ hr₀
      omega
  · intro w w' s hw hw'
    rcases (hWriting w s).mp hw with ⟨rfl, hs⟩ | hOld
    · rcases (hWriting w' s).mp hw' with ⟨rfl, -⟩ | hOld'
      · rfl
      · have := (hInv.claimed w' s hOld').1
        omega
    · rcases (hWriting w' s).mp hw' with ⟨rfl, hs⟩ | hOld'
      · have := (hInv.claimed w s hOld).1
        omega
      · exact hInv.unique w w' s hOld hOld'
  · intro r hr
    rw [hDone, hRead, hNext]
    obtain ⟨hLap, -⟩ := hInv.lap r hr
    have := hMin r hr
    exact ⟨hLap, by omega⟩
  · intro r hr
    rw [hDone, hRead]
    rw [hPcs] at hr
    exact hInv.reading r hr
  · have hSame : x'.published = x.published := by rw [hEq]
    rw [hDone, hSame]
    exact hInv.encodes

theorem endWrite (hInv : Inv K x) (h : EndWrite K writer x x') : Inv K x' := by
  obtain ⟨hPc, hEq⟩ := h
  set seq := x.claimedSequence writer with hSeq
  have hOwn : x.Writing writer seq := ⟨hPc, rfl⟩
  have hWriting : ∀ w s, x'.Writing w s ↔ w ≠ writer ∧ x.Writing w s := by
    intro w s
    subst hEq
    rcases eq_or_ne w writer with rfl | hne
    · simp [Writing]
    · simp [Writing, hne]
  have hNext : x'.nextSequence = x.nextSequence := by rw [hEq]
  have hRead : x'.read = x.read := by rw [hEq]
  have hPcs : ∀ r, x'.pc (.inr r) = x.pc (.inr r) := fun r => by rw [hEq]; rfl
  have hBounds := hInv.claimed writer seq hOwn
  have hDone : x'.done = x.done ∪ {seq} := by
    ext s
    simp only [done, Set.mem_ofPred_eq, Set.mem_union, Set.mem_singleton_iff, hNext, hWriting]
    constructor
    · rintro ⟨hlt, hNot⟩
      rcases eq_or_ne s seq with rfl | hne
      · exact .inr rfl
      · refine .inl ⟨hlt, fun w hw => hNot w ⟨?_, hw⟩⟩
        rintro rfl
        exact hne hw.2.symm
    · rintro (⟨hlt, hNot⟩ | rfl)
      · exact ⟨hlt, fun w hw => hNot w hw.2⟩
      · exact ⟨hBounds.1, fun w hw => hw.1 (hInv.unique w writer _ hw.2 hOwn)⟩
  refine ⟨?_, ?_, ?_, ?_, ?_, ?_, ?_⟩
  · intro i w
    have hMem : w ∈ x'.ringbuffer.writers i ↔
        ¬ (w = writer ∧ i = slotOf K.size seq) ∧ w ∈ x.ringbuffer.writers i := by
      rw [hEq]
      exact RingBuffer.mem_endWrite
    rw [hMem, hInv.writers]
    rcases eq_or_ne w writer with rfl | hne
    · refine iff_of_false (fun hIn => hIn.1 ⟨rfl, hIn.2.2.symm⟩) ?_
      simp [hEq]
    · simp [hEq, hne]
  · intro i r
    have hSame : x'.ringbuffer.readers = x.ringbuffer.readers := by rw [hEq]; rfl
    rw [hSame, hPcs, hRead]
    exact hInv.readers i r
  · intro w s hw
    rw [hNext]
    exact hInv.claimed w s ((hWriting w s).mp hw).2
  · intro w w' s hw hw'
    exact hInv.unique w w' s ((hWriting w s).mp hw).2 ((hWriting w' s).mp hw').2
  · intro r hr
    rw [hDone, hRead, hNext]
    obtain ⟨hLap, hLe⟩ := hInv.lap r hr
    refine ⟨hLap.union fun s hs => ?_, hLe⟩
    rw [Set.mem_singleton_iff] at hs
    omega
  · intro r hr
    rw [hPcs] at hr
    obtain ⟨hMem, hReading⟩ := hInv.reading r hr
    rw [hDone, hRead]
    exact ⟨hMem, .inl hReading⟩
  · -- the flag of the slot is flipped, and that of no other
    have hPublished : ∀ i, x'.published i =
        if i = slotOf K.size seq then !x.published i else x.published i := by
      intro i
      rw [hEq]
      show x.publish K seq i = _
      unfold publish
      rw [Function.update_apply, RingBuffer.indexOf_eq, xor_true]
      split
      · rename_i hSame
        rw [hSame]
      · rfl
    rw [hDone]
    refine hInv.encodes.mark K.pos hInv.round ?_ ?_ ?_ ?_
    · intro s hs
      rw [Set.mem_singleton_iff] at hs
      subst hs
      exact fun hIn => hIn.2 writer hOwn
    · intro s hs
      rw [Set.mem_singleton_iff] at hs
      omega
    · intro s hs
      rw [Set.mem_singleton_iff] at hs
      simp only [hPublished, hs, if_true]
    · intro s hs
      have hne := hs seq rfl
      simp only [hPublished, if_neg hne.symm]

theorem beginRead (hInv : Inv K x) (hMem : reader ∈ K.readers) (h : BeginRead K reader x x') :
    Inv K x' := by
  obtain ⟨hPublished, hPc, hEq⟩ := h
  rw [hInv.isPublished_next hMem] at hPublished
  have hWriting : x'.Writing = x.Writing := by rw [hEq]; rfl
  have hDone : x'.done = x.done := by
    unfold done
    rw [hWriting, hEq]
  have hRead : x'.read = x.read := by rw [hEq]
  have hNext : x'.nextSequence = x.nextSequence := by rw [hEq]
  refine ⟨?_, ?_, ?_, ?_, ?_, ?_, ?_⟩
  · intro i w
    have hSame : x'.ringbuffer.writers = x.ringbuffer.writers := by rw [hEq]; rfl
    rw [hSame, hInv.writers, hEq]
    rfl
  · intro i r
    have hIn : r ∈ x'.ringbuffer.readers i ↔
        r = reader ∧ i = slotOf K.size (x.read reader + 1) ∨ r ∈ x.ringbuffer.readers i := by
      rw [hEq]
      exact RingBuffer.mem_beginRead
    rw [hIn, hInv.readers]
    rcases eq_or_ne r reader with rfl | hne
    · simp [hEq, hPc, eq_comm]
    · simp [hEq, hne]
  · rw [hWriting, hNext]
    exact hInv.claimed
  · rw [hWriting]
    exact hInv.unique
  · intro r hr
    rw [hDone, hRead, hNext]
    exact hInv.lap r hr
  · intro r hr
    rw [hDone, hRead]
    rcases eq_or_ne r reader with rfl | hne
    · exact ⟨hMem, hPublished⟩
    · refine hInv.reading r ?_
      simpa [hEq, hne] using hr
  · have hSame : x'.published = x.published := by rw [hEq]
    rw [hDone, hSame]
    exact hInv.encodes

theorem endRead (hInv : Inv K x) (h : EndRead K reader x x') : Inv K x' := by
  obtain ⟨hPc, hEq⟩ := h
  obtain ⟨hMem, hReading⟩ := hInv.reading reader hPc
  have hWriting : x'.Writing = x.Writing := by rw [hEq]; rfl
  have hDone : x'.done = x.done := by
    unfold done
    rw [hWriting, hEq]
  have hNext : x'.nextSequence = x.nextSequence := by rw [hEq]
  have hRead : ∀ r, x'.read r = if r = reader then x.read r + 1 else x.read r := by
    intro r
    rw [hEq]
    show Function.update x.read reader (x.read reader + 1) r = _
    rw [Function.update_apply]
    split
    · rename_i hSame
      rw [hSame]
    · rfl
  refine ⟨?_, ?_, ?_, ?_, ?_, ?_, ?_⟩
  · intro i w
    have hSame : x'.ringbuffer.writers = x.ringbuffer.writers := by rw [hEq]; rfl
    rw [hSame, hInv.writers, hEq]
    rfl
  · intro i r
    have hIn : r ∈ x'.ringbuffer.readers i ↔
        ¬ (r = reader ∧ i = slotOf K.size (x.read reader + 1)) ∧ r ∈ x.ringbuffer.readers i := by
      rw [hEq]
      exact RingBuffer.mem_endRead
    rw [hIn, hInv.readers, hRead]
    rcases eq_or_ne r reader with rfl | hne
    · refine iff_of_false (fun hOld => hOld.1 ⟨rfl, hOld.2.2.symm⟩) ?_
      simp [hEq]
    · simp [hEq, hne]
  · rw [hWriting, hNext]
    exact hInv.claimed
  · rw [hWriting]
    exact hInv.unique
  · intro r hr
    obtain ⟨hLap, hLe⟩ := hInv.lap r hr
    rw [hDone, hRead, hNext]
    split
    · rename_i hSame
      subst hSame
      refine ⟨hLap.extend (by omega) fun s hlo hhi => ?_, by omega⟩
      obtain rfl : s = x.read r + 1 := by omega
      exact hReading
    · exact ⟨hLap, hLe⟩
  · intro r hr
    rcases eq_or_ne r reader with rfl | hne
    · simp [hEq] at hr
    · rw [hDone, hRead, if_neg hne]
      refine hInv.reading r ?_
      simpa [hEq, hne] using hr
  · have hSame : x'.published = x.published := by rw [hEq]
    rw [hDone, hSame]
    exact hInv.encodes

theorem next (hInv : Inv K x) (h : Next K x x') : Inv K x' := by
  rcases h with ⟨w, -, h⟩ | ⟨w, -, h⟩ | ⟨r, hMem, h⟩ | ⟨r, -, h⟩
  · exact hInv.beginWrite h
  · exact hInv.endWrite h
  · exact hInv.beginRead hMem h
  · exact hInv.endRead h

end Steps

end Inv

/-- **`NoDataRaces` is an invariant**, for all constants. -/
theorem spec_noDataRaces [DecidableEq Writer] [DecidableEq Reader] {b : Nat → MPMC Writer Reader}
    (h : (spec K).Behaviour b) (i : Nat) : (b i).ringbuffer.NoDataRaces K.size :=
  (h.always (P := Inv K) (fun _ hInit => hInit ▸ .initial) (fun _ _ => Inv.next) i).noDataRaces

end MPMC

end Calvera.Verification
