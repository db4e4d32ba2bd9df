import Calvera.Results.SlotExclusion

/-!
# Results — the availability bitfield

One bit per slot can tell two neighbouring rounds apart and no more. It is
enough because nobody gets a round ahead: a sequence is flipped only after the
sequence one round before it was flipped and passed by every consumer.

* `availability_bits` — no sequence is flipped twice, flips of one slot come in
  order, each bit shows the last flip of its slot, and within a round of a
  consumer's next sequence a bit shows its sequence exactly when that sequence
  is published.
-/

namespace Calvera

open Calvera.Lib Calvera.Protocol

variable {E : Type} {R : RingSize} {T : Topology Nat} {w : Wiring}

/-- The availability bit of slot `i`, as a word. -/
def slotBit (m : Memory E) (i : Nat) : BitVec 64 := (m.available (i / 64) >>> (i % 64)) &&& 1#64

theorem slotBit_eq (m : Memory E) (i : Nat) : slotBit m i = if m.bit i then 1#64 else 0#64 := by
  rw [slotBit, and_one_eq, BitVec.getLsbD_ushiftRight, Nat.add_zero]
  rfl

/-- A bit shows the flag of a sequence when it shows the parity of its round. -/
theorem slotBit_eq_flag (m : Memory E) (t : Int) :
    slotBit m (R.slot t) = R.calculateAvailabilityFlag t ↔
      m.bit (slotOf R.size t) = oddRound R.size t := by
  rw [slotBit_eq, R.calculateAvailabilityFlag_eq, R.slot_eq]
  cases m.bit (slotOf R.size t) <;> cases oddRound R.size t <;> simp

-- ---------------------------------------------------------------------------
-- The order of flips
-- ---------------------------------------------------------------------------

/-- A step that flips bits leaves the cursor alone. -/
theorem MultiSystemStep.cursor_or_flips {s s' : MultiSystem E} {act : Act (MultiAct E)}
    {es : List (Event E)} (hStep : MultiSystemStep R w s act s' es) :
    s'.memory.cursor = s.memory.cursor ∨ flips es = [] := by
  cases hStep with
  | consumer hSpec hStep =>
    left
    rcases hStep.memory with rfl | ⟨v, rfl⟩ <;> rfl
  | handle hStep =>
    cases hStep with
    | claim _ _ hClaim =>
      obtain ⟨-, rfl⟩ := Prod.mk.inj hClaim
      exact .inr rfl
    | _ => exact .inl rfl
  | clone => exact .inl rfl
  | dropLast => exact .inl rfl
  | drop => exact .inl rfl

/-- What a step flips was claimed and unpublished before it. -/
theorem MultiInv.step_flips {tr es : List (Event E)} {s s' : MultiSystem E}
    {act : Act (MultiAct E)} (hInv' : MultiInv R T (tr ++ es) s')
    (hStep : MultiSystemStep R w s act s' es) {t : Int} (ht : t ∈ flips es) :
    t ∉ publishedBy tr ∧ 0 ≤ t ∧ t ≤ s.memory.cursor := by
  have hNodup := hInv'.ledger.nodup
  rw [flips_append] at hNodup
  have hBounds := hInv'.ledger.published_bounds t (by
    rw [flips_append]
    exact List.mem_append_right _ ht)
  have hCursor : s'.memory.cursor = s.memory.cursor := hStep.cursor_or_flips.resolve_right fun h => by
    simp [h] at ht
  rw [mem_publishedBy, not_or]
  refine ⟨⟨by omega, fun hOld => ?_⟩, hBounds.1, hCursor ▸ hBounds.2⟩
  exact (List.nodup_append.mp hNodup).2.2 t hOld t ht rfl

/-- The round before a claimed sequence is flipped, and every cursor is past it. -/
theorem MultiInv.round_before {tr : List (Event E)} {s : MultiSystem E} (hInv : MultiInv R T tr s)
    {t : Int} (hLo : R.size ≤ t) (hHi : t ≤ s.memory.cursor) :
    t - R.size ∈ flips tr ∧ ∀ c ∈ T.members, t - R.size ≤ s.memory.consumerCursors c := by
  have hCursors : ∀ c ∈ T.members, t - R.size ≤ s.memory.consumerCursors c := by
    intro c hMem
    have := hInv.cursor_le hMem
    omega
  obtain ⟨c, hMem⟩ := T.nonempty
  have hPublished : t - R.size ∈ publishedBy tr :=
    (hInv.consistent.lap hMem).filled _ (hCursors c hMem)
  rw [mem_publishedBy] at hPublished
  exact ⟨hPublished.resolve_left (by omega), hCursors⟩

/-- **The flips of one slot come in the order of their rounds.** -/
theorem MultiRun.flips_increasing {R : MultiRingSize} {factory : Nat → E}
    (hWired : Wired T .multiProducer w) {tr : List (Event E)} {s : MultiSystem E}
    (hRun : MultiRun R w factory tr s) :
    (flips tr).Pairwise fun t u => R.slot t = R.slot u → t < u := by
  refine MultiRun.rule hWired (P := fun tr _ =>
    (flips tr).Pairwise fun t u => R.slot t = R.slot u → t < u) List.Pairwise.nil ?_ hRun
  intro tr s act s' es _ hInv hInv' hIncreasing hStep
  have hNodup := hInv'.ledger.nodup
  rw [flips_append] at hNodup ⊢
  obtain ⟨-, hNew, -⟩ := List.nodup_append.mp hNodup
  refine List.pairwise_append.mpr ⟨hIncreasing, ?_, fun t ht u hu hSlot => ?_⟩
  · -- one step flips different slots
    refine hNew.imp_of_mem fun {t u} ht hu hne hSlot => absurd ?_ hne
    obtain ⟨htNew, -, htLe⟩ := hInv'.step_flips hStep ht
    obtain ⟨huNew, -, huLe⟩ := hInv'.step_flips hStep hu
    exact ring_exclusion hInv.consistent.inv htNew htLe (.inl ⟨huNew, huLe⟩) hSlot
  · -- a flip after another one in the same slot is of a later round
    obtain ⟨huNew, -, -⟩ := hInv'.step_flips hStep hu
    have hOld := hInv.ledger.published_bounds t ht
    by_contra hle
    have hne : t ≠ u := fun hEq => huNew (.inr (hEq ▸ ht))
    rw [R.slot_eq, R.slot_eq, slotOf_eq_iff_dvd R.pos] at hSlot
    have hRound : u ≤ t - R.size := by
      have := Int.le_of_dvd (by omega) hSlot
      omega
    obtain ⟨c, hMem⟩ := T.nonempty
    have := hInv.cursor_le hMem
    exact huNew ((hInv.consistent.lap hMem).filled u (by omega))

-- ---------------------------------------------------------------------------
-- The bitfield
-- ---------------------------------------------------------------------------

/-- Below its next sequence a consumer leaves nothing unpublished. -/
theorem MultiInv.next_lap {tr : List (Event E)} {s : MultiSystem E} (hInv : MultiInv R T tr s)
    {c : Nat} (hMem : c ∈ T.members) {q : Int} (hlo : s.memory.consumerCursors c < q)
    (hhi : q = s.memory.consumerCursors c + 1 ∨
      q ≤ (s.consumers c).granted (s.memory.consumerCursors c) + 1) :
    Lap R.size (publishedBy tr) (q - 1) := by
  refine (hInv.consistent.lap hMem).extend (by omega) fun t ht ht' => ?_
  exact hInv.consistent.inv.granted_published hMem
    (by show t ≤ (s.consumers c).granted (s.memory.consumerCursors c); omega)

/-- A bit is the flag of the last sequence flipped into its slot. -/
theorem MultiInv.last_flip {tr : List (Event E)} {s : MultiSystem E} (hInv : MultiInv R T tr s)
    (hIncreasing : (flips tr).Pairwise fun t u => R.slot t = R.slot u → t < u) {i : Nat} {t : Int}
    (hLast : ((flips tr).filter fun t => R.slot t = i).getLast? = some t) :
    slotBit s.memory i = R.calculateAvailabilityFlag t := by
  obtain ⟨earlier, hSplit⟩ := List.getLast?_eq_some_iff.mp hLast
  have hIn : ∀ u, u ∈ earlier ++ [t] ↔ u ∈ flips tr ∧ R.slot u = i := by
    intro u
    rw [← hSplit, List.mem_filter, decide_eq_true_eq]
  obtain ⟨ht, rfl⟩ := (hIn t).mp (List.mem_append_right _ (List.mem_singleton_self t))
  have hMax : ∀ u ∈ flips tr, R.slot u = R.slot t → u ≤ t := by
    intro u hu hSlot
    have hOrder := hIncreasing.filter fun u => R.slot u = R.slot t
    rw [hSplit, List.pairwise_append] at hOrder
    rcases List.mem_append.mp ((hIn u).mpr ⟨hu, hSlot⟩) with hEarlier | hSame
    · exact le_of_lt (hOrder.2.2 u hEarlier t (List.mem_singleton_self t) hSlot)
    · exact le_of_eq (List.mem_singleton.mp hSame)
  have hNonneg := (hInv.ledger.published_bounds t ht).1
  have hSize := R.size_pos
  rw [slotBit_eq_flag]
  refine hInv.consistent.represents.published.2 t (.inr ht) fun hNext => ?_
  have hNext' : t + R.size ∈ flips tr := hNext.resolve_left (by omega)
  have := hMax _ hNext' (by rw [R.slot_eq, R.slot_eq, slotOf_add_size])
  omega

/-- A bit is `1` as long as nothing was flipped into its slot. -/
theorem MultiInv.no_flip {tr : List (Event E)} {s : MultiSystem E} (hInv : MultiInv R T tr s)
    {i : Nat} (hi : i < R.size)
    (hNone : ((flips tr).filter fun t => R.slot t = i).getLast? = none) :
    slotBit s.memory i = 1#64 := by
  rw [List.getLast?_eq_none_iff, List.filter_eq_nil_iff] at hNone
  have hSlot : slotOf R.size ((i : Int) - R.size) = i := by
    rw [slotOf_sub_size, slotOf_natCast hi]
  have hOdd : oddRound R.size ((i : Int) - R.size) = true := oddRound_neg (by omega) (by omega)
  have hBit : s.memory.bit i = true := by
    rw [← hSlot, ← hOdd]
    refine hInv.consistent.represents.published.2 _ (.inl (by omega)) fun hNext => ?_
    rw [Int.sub_add_cancel] at hNext
    rcases hNext with hNeg | hFlip
    · omega
    · exact hNone _ hFlip (by rw [R.slot_eq, slotOf_natCast hi]; simp)
  rw [slotBit_eq, hBit]
  rfl

/-- **The availability bits.** In every reachable state of a multi-producer
disruptor: no sequence was flipped twice; a step flips a sequence `t ≥ size`
only after `t - size` was flipped and every cursor had reached `t - size`; the
bit of each slot is the flag of the last sequence flipped into it, and `1` when
there is none; and for a consumer with next sequence `q`, within the round from
`q` on, the bit of a slot is the flag of its sequence exactly when that sequence
is published. -/
theorem availability_bits (R : MultiRingSize) (chain : BuildChain) (w : Wiring)
    (hBuild : chain.build buildMultiProducerUnchecked = some w) (factory : Nat → E)
    (tr : List (Event E)) (s : MultiSystem E) (hRun : MultiRun R w factory tr s) :
    (flips tr).Nodup ∧
    (∀ act s' es, MultiAct.InRange act → MultiSystem.step R.toRingSize w s act = some (s', es) →
      ∀ t ∈ flips es, R.size ≤ t → t - R.size ∈ flips tr ∧
        ∀ c < w.consumers.length, t - R.size ≤ s.memory.consumerCursors c) ∧
    (∀ i < R.size, match ((flips tr).filter fun t => R.slot t = i).getLast? with
      | some t => slotBit s.memory i = R.calculateAvailabilityFlag t
      | none => slotBit s.memory i = 1#64) ∧
    (∀ c < w.consumers.length, ∀ q, (q = s.memory.consumerCursors c + 1 ∨
        q = s.nextSequence c) → ∀ t, q ≤ t → t < q + R.size →
        (slotBit s.memory (R.slot t) = R.calculateAvailabilityFlag t ↔ t ∈ flips tr)) := by
  have hWired := BuildChain.wired_multi hBuild
  have hInv := hRun.inv hWired
  have hEnc := hInv.consistent.represents.published.2
  refine ⟨hInv.ledger.nodup, ?_, ?_, ?_⟩
  · intro act s' es hRange hs t ht hLo
    have hInv' := hInv.step hWired hRange hs
    obtain ⟨-, -, hLe⟩ := hInv'.step_flips (multiStep_cases hs) ht
    obtain ⟨hBefore, hCursors⟩ := hInv.round_before hLo hLe
    exact ⟨hBefore, fun c hc => hCursors c ((hWired.mem_iff c).mpr hc)⟩
  · intro i hi
    split <;> rename_i hLast
    · exact hInv.last_flip (hRun.flips_increasing hWired) hLast
    · exact hInv.no_flip hi hLast
  · intro c hc q hq t hlo hhi
    have hMem := (hWired.mem_iff c).mpr hc
    have hAhead : s.memory.consumerCursors c < q ∧ (q = s.memory.consumerCursors c + 1 ∨
        q ≤ (s.consumers c).granted (s.memory.consumerCursors c) + 1) := by
      rcases hq with rfl | rfl
      · omega
      · exact hInv.consistent.next_bounds hMem
    have hLap := hInv.next_lap hMem hAhead.1 hAhead.2
    have hNonneg : ¬ t < 0 := by
      have : -1 ≤ s.memory.consumerCursors c := hInv.consistent.inv.cursor_ge c hMem
      omega
    rw [slotBit_eq_flag, hEnc.bit_iff R.pos hLap (by omega) (by omega)]
    exact or_iff_right hNonneg

/-- After `twoHandles` the first slot shows an even round, and the next one is
untouched. -/
theorem availability_bits_two_handles : ∃ tr s,
    MultiRun ring64 (pollerThenHandlerWiring .multiProducer) (fun _ => 0) tr s ∧ flips tr = [0] ∧
    slotBit s.memory 0 = ring64.calculateAvailabilityFlag 0 ∧ slotBit s.memory 1 = 1#64 := by
  have hExec : (execMulti twoHandles).any (fun x => flips x.2 = [0]) = true := by decide
  obtain ⟨tr, s, hRun, hState⟩ := Run.of_schedule
    (by decide : ∀ a ∈ twoHandles, MultiAct.InRange a) hExec
  have hFlips : flips tr = [0] := of_decide_eq_true hState
  obtain ⟨-, -, hLast, -⟩ := availability_bits ring64 pollerThenHandler _ rfl _ tr s hRun
  have hFirst := hLast 0 (by decide)
  have hSecond := hLast 1 (by decide)
  have hSlot : ring64.slot 0 = 0 := by decide
  simp only [hFlips, List.filter_cons, hSlot, List.filter_nil] at hFirst hSecond
  exact ⟨tr, s, hRun, hFlips, hFirst, hSecond⟩

end Calvera
