import Calvera.Verification.Liveliness
import Mathlib.Data.Fintype.Sum

/-!
# Results — the specifications, for all constants

What the model checker is asked about `verification/Disruptor.tla` and
`verification/MPMC.tla`, for every number of readers, every size of the ring and
every number of events.

* `spmc_noDataRaces_iff` — `Disruptor.tla` has no data races exactly with one writer.
* `spmc_liveliness`      — with one writer, all readers read everything in order.
* `mpmc_liveliness`      — the same of `MPMC.tla`, with any writers.
-/

namespace Calvera.Verification

open Calvera.Lib

variable {Writer Reader : Type} [DecidableEq Writer] [DecidableEq Reader]
  {K : Constants Writer Reader}

-- ---------------------------------------------------------------------------
-- Data races of the single-producer specification
-- ---------------------------------------------------------------------------

/-- `writer` begins to write. -/
def SPMC.written (K : Constants Writer Reader) (writer : Writer) (x : SPMC Writer Reader) :
    SPMC Writer Reader :=
  { x with
    pc := Function.update x.pc (.inl writer) .advance
    ringbuffer := x.ringbuffer.write (RingBuffer.indexOf K.size (x.published + 1)) writer
      (x.published + 1) }

/-- Two writers begin to write, one after the other. -/
def SPMC.twoWriters (K : Constants Writer Reader) (w w' : Writer) : Nat → SPMC Writer Reader
  | 0 => initial
  | 1 => written K w initial
  | _ => written K w' (written K w initial)

/-- Nothing of the guard of `BeginWrite` depends on the other writer. -/
theorem SPMC.beginWrite_written {x : SPMC Writer Reader} {w : Writer}
    (hReaders : K.readers.Nonempty) (hMax : 0 < K.maxPublished) (hPublished : x.published = -1)
    (hRead : ∀ r, x.read r = -1) (hPc : x.pc (.inl w) = .access) :
    BeginWrite K w x (written K w x) := by
  obtain ⟨r, hr⟩ := hReaders
  have := K.pos
  refine ⟨⟨-1, ⟨⟨r, hr, hRead r⟩, fun r' _ => (hRead r').ge⟩, ?_⟩, ?_, hPc, rfl⟩
  · rw [hPublished]
    omega
  · rw [hPublished]
    omega

/-- **One writer is needed, and enough.** With something to publish and somebody
to read it, `NoDataRaces` is an invariant of `Disruptor.tla` exactly when there
are no two writers. -/
theorem spmc_noDataRaces_iff (hReaders : K.readers.Nonempty) (hMax : 0 < K.maxPublished) :
    (∀ b, (SPMC.spec K).Behaviour b → ∀ i, (b i).ringbuffer.NoDataRaces K.size) ↔
      K.writers.Subsingleton := by
  constructor
  · intro hNone w hw w' hw'
    by_contra hne
    -- both writers pass the guard of the first sequence
    have hFirst : SPMC.BeginWrite K w .initial (SPMC.written K w .initial) :=
      SPMC.beginWrite_written hReaders hMax rfl (fun _ => rfl) rfl
    have hSecond : SPMC.BeginWrite K w' (SPMC.written K w .initial)
        (SPMC.written K w' (SPMC.written K w .initial)) := by
      refine SPMC.beginWrite_written hReaders hMax rfl (fun _ => rfl) ?_
      simp [SPMC.written, Ne.symm hne, SPMC.initial]
    have hBehaviour : (SPMC.spec K).Behaviour (SPMC.twoWriters K w w') := by
      refine ⟨rfl, fun i => ?_⟩
      rcases i with _ | _ | i
      · exact .inl (.inl ⟨w, hw, hFirst⟩)
      · exact .inl (.inl ⟨w', hw', hSecond⟩)
      · exact .inr rfl
    have hRace := (hNone _ hBehaviour 2 _ (slotOf_lt K.pos 0)).2
    rw [Finset.card_le_one] at hRace
    exact hne (hRace w (RingBuffer.mem_write.mpr (.inr (RingBuffer.mem_write.mpr (.inl ⟨rfl, rfl⟩))))
      w' (RingBuffer.mem_write.mpr (.inl ⟨rfl, rfl⟩)))
  · intro hSingle b hb i
    have hInv := hb.always (P := SPMC.Inv K) (fun _ hInit => hInit ▸ .initial)
      (fun _ _ hx => hx.next hSingle) i
    exact hInv.noDataRaces hSingle

/-- One writer and one reader, one event, one slot. -/
def onePair : Constants Unit Unit where
  writers := {()}
  readers := {()}
  maxPublished := 1
  size := 1
  pos := by decide

theorem spmc_noDataRaces_onePair :
    (∀ b, (SPMC.spec onePair).Behaviour b → ∀ i, (b i).ringbuffer.NoDataRaces onePair.size) ↔
      onePair.writers.Subsingleton :=
  spmc_noDataRaces_iff (by decide) (by decide)

-- ---------------------------------------------------------------------------
-- Liveliness
-- ---------------------------------------------------------------------------

/-- **`Liveliness` of `Disruptor.tla`**: every fair behaviour with one writer comes
to a point from which on every reader has read all events in order. -/
theorem spmc_liveliness {w : Writer} (hSingle : K.writers = {w}) {b : Nat → SPMC Writer Reader}
    (h : (SPMC.spec K).Behaviour b) (hFair : SPMC.Fairness K b) :
    ∃ i, ∀ j, i ≤ j → ∀ r ∈ K.readers, (b j).consumed r = inOrder K.maxPublished := by
  obtain ⟨i, hInv, hRest⟩ := SPMC.rests h hSingle
  have hw : w ∈ K.writers := hSingle ▸ Set.mem_singleton w
  refine ⟨i, fun j hj r hr => ?_⟩
  rw [hRest j hj]
  exact hInv.settled hr ((hFair.beginWrite w hw).disabled_of_rest hRest)
    ((hFair.endWrite w hw).disabled_of_rest hRest)
    (fun r hr => (hFair.beginRead r hr).disabled_of_rest hRest)
    (fun r hr => (hFair.endRead r hr).disabled_of_rest hRest)

/-- The event is written and read. -/
def SPMC.oneEvent : Nat → SPMC Unit Unit
  | 0 => initial
  | 1 => written onePair () initial
  | 2 => ended
  | 3 => { ended with
      pc := Function.update ended.pc (.inr ()) .advance
      ringbuffer := ended.ringbuffer.beginRead 0 ()
      consumed := Function.update ended.consumed () (ended.consumed () ++ [ended.ringbuffer.read 0]) }
  | _ => { ended with
      pc := Function.update (Function.update ended.pc (.inr ()) .advance) (.inr ()) .access
      ringbuffer := (ended.ringbuffer.beginRead 0 ()).endRead 0 ()
      consumed := Function.update ended.consumed () (ended.consumed () ++ [ended.ringbuffer.read 0])
      read := Function.update ended.read () 0 }
where
  ended : SPMC Unit Unit :=
    { written onePair () initial with
      pc := Function.update (written onePair () initial).pc (.inl ()) .access
      ringbuffer := (written onePair () initial).ringbuffer.endWrite 0 ()
      published := 0 }

theorem SPMC.oneEvent_behaviour : (SPMC.spec onePair).Behaviour SPMC.oneEvent := by
  refine ⟨rfl, fun i => ?_⟩
  rcases i with _ | _ | _ | _ | i
  · exact .inl (.inl ⟨(), rfl, beginWrite_written (by decide) (by decide) rfl (fun _ => rfl) rfl⟩)
  · exact .inl (.inr (.inl ⟨(), rfl, by decide, rfl⟩))
  · exact .inl (.inr (.inr (.inl ⟨(), by decide, by decide, by decide, rfl⟩)))
  · exact .inl (.inr (.inr (.inr ⟨(), by decide, by decide, rfl⟩)))
  · exact .inr rfl

theorem SPMC.oneEvent_fair : Fairness onePair SPMC.oneEvent := by
  have hRest : RestsFrom oneEvent 4 := by
    intro j hj
    obtain ⟨j, rfl⟩ := Nat.exists_eq_add_of_le' hj
    rfl
  have hPc : ∀ p, (oneEvent 4).pc p ≠ .advance := by decide
  have hRead : ∀ r, ¬ (oneEvent 4).read r + 1 ≤ (oneEvent 4).published := by decide
  refine ⟨?_, ?_, ?_, ?_⟩
  · rintro w -
    refine .of_rest hRest ?_
    rintro ⟨_, ⟨_, hMax, _⟩, _⟩
    exact absurd hMax (by decide)
  · rintro w -
    refine .of_rest hRest ?_
    rintro ⟨_, ⟨hAdvance, _⟩, _⟩
    exact hPc _ hAdvance
  · rintro r -
    refine .of_rest hRest ?_
    rintro ⟨_, ⟨hNext, _⟩, _⟩
    exact hRead r hNext
  · rintro r -
    refine .of_rest hRest ?_
    rintro ⟨_, ⟨hAdvance, _⟩, _⟩
    exact hPc _ hAdvance

theorem spmc_liveliness_onePair :
    ∃ i, ∀ j, i ≤ j → ∀ r ∈ onePair.readers, (SPMC.oneEvent j).consumed r = inOrder 1 :=
  spmc_liveliness rfl SPMC.oneEvent_behaviour SPMC.oneEvent_fair

/-- **`Liveliness` of `MPMC.tla`**, with any writers at all. -/
theorem mpmc_liveliness (hWriters : K.writers.Nonempty) {b : Nat → MPMC Writer Reader}
    (h : (MPMC.spec K).Behaviour b) (hFair : MPMC.Fairness K b) :
    ∃ i, ∀ j, i ≤ j → ∀ r ∈ K.readers, (b j).consumed r = inOrder K.maxPublished := by
  obtain ⟨i, hReads, hRest⟩ := MPMC.rests h
  obtain ⟨w, hw⟩ := hWriters
  refine ⟨i, fun j hj r hr => ?_⟩
  rw [hRest j hj]
  exact hReads.settled hr ((hFair.beginWrite w hw).disabled_of_rest hRest)
    (fun w hw => (hFair.endWrite w hw).disabled_of_rest hRest)
    (fun r hr => (hFair.beginRead r hr).disabled_of_rest hRest)
    (fun r hr => (hFair.endRead r hr).disabled_of_rest hRest)

/-- The event is written and read. -/
def MPMC.oneEvent : Nat → MPMC Unit Unit
  | 0 => initial
  | 1 => begun
  | 2 => ended
  | 3 => { ended with
      pc := Function.update ended.pc (.inr ()) .advance
      ringbuffer := ended.ringbuffer.beginRead 0 ()
      consumed := Function.update ended.consumed () (ended.consumed () ++ [ended.ringbuffer.read 0]) }
  | _ => { ended with
      pc := Function.update (Function.update ended.pc (.inr ()) .advance) (.inr ()) .access
      ringbuffer := (ended.ringbuffer.beginRead 0 ()).endRead 0 ()
      consumed := Function.update ended.consumed () (ended.consumed () ++ [ended.ringbuffer.read 0])
      read := Function.update ended.read () 0 }
where
  begun : MPMC Unit Unit :=
    { (initial : MPMC Unit Unit) with
      claimedSequence := Function.update (fun _ => -1) () 0
      nextSequence := 1
      pc := Function.update (fun _ => .access) (.inl ()) .advance
      ringbuffer := RingBuffer.init.write 0 () 0 }
  ended : MPMC Unit Unit :=
    { begun with
      pc := Function.update begun.pc (.inl ()) .access
      ringbuffer := begun.ringbuffer.endWrite 0 ()
      published := begun.publish onePair 0 }

theorem MPMC.oneEvent_behaviour : (MPMC.spec onePair).Behaviour MPMC.oneEvent := by
  have hMin : IsMinReadSequence onePair (initial : MPMC Unit Unit) (-1) :=
    ⟨⟨(), by decide, rfl⟩, fun _ _ => le_refl _⟩
  refine ⟨rfl, fun i => ?_⟩
  rcases i with _ | _ | _ | _ | i
  · exact .inl (.inl ⟨(), rfl, ⟨-1, hMin, by decide⟩, by decide, by decide, rfl⟩)
  · exact .inl (.inr (.inl ⟨(), rfl, by decide, rfl⟩))
  · exact .inl (.inr (.inr (.inl ⟨(), by decide, by unfold IsPublished; decide, by decide, rfl⟩)))
  · exact .inl (.inr (.inr (.inr ⟨(), by decide, by decide, rfl⟩)))
  · exact .inr rfl

theorem MPMC.oneEvent_fair : Fairness onePair MPMC.oneEvent := by
  have hRest : RestsFrom oneEvent 4 := by
    intro j hj
    obtain ⟨j, rfl⟩ := Nat.exists_eq_add_of_le' hj
    rfl
  have hPc : ∀ p, (oneEvent 4).pc p ≠ .advance := by decide
  have hNot : ∀ r, ¬ (oneEvent 4).IsPublished onePair ((oneEvent 4).read r + 1) := by
    unfold IsPublished
    decide
  refine ⟨?_, ?_, ?_, ?_⟩
  · rintro w -
    refine .of_rest hRest ?_
    rintro ⟨_, ⟨_, hMax, _⟩, _⟩
    exact absurd hMax (by decide)
  · rintro w -
    refine .of_rest hRest ?_
    rintro ⟨_, ⟨hAdvance, _⟩, _⟩
    exact hPc _ hAdvance
  · rintro r -
    refine .of_rest hRest ?_
    rintro ⟨_, ⟨hPublished, _⟩, _⟩
    exact hNot r hPublished
  · rintro r -
    refine .of_rest hRest ?_
    rintro ⟨_, ⟨hAdvance, _⟩, _⟩
    exact hPc _ hAdvance

theorem mpmc_liveliness_onePair :
    ∃ i, ∀ j, i ≤ j → ∀ r ∈ onePair.readers, (MPMC.oneEvent j).consumed r = inOrder 1 :=
  mpmc_liveliness (K := onePair) ⟨(), rfl⟩ MPMC.oneEvent_behaviour MPMC.oneEvent_fair

end Calvera.Verification
