import Calvera.Code.Iterators
import Calvera.Refinement.Polling
import Calvera.Results.Stages

/-!
# Results — polling

A poller takes its stream in windows of its client's choosing: any limit, any
amount of iteration, calls that fail in between. The windows are consecutive
all the same, and nothing but dropping a guard frees a slot.

* `polling_sound` — all of this, for every poller of either disruptor.
-/

namespace Calvera

open Calvera.Lib Calvera.Protocol

variable {E P A : Type}

/-- Where a sequence of calls, the latest first, has left the cursor. -/
def cursorAfter : List (PollCall E) → Int
  | [] => NONE
  | call :: _ =>
    match call.outcome with
    | .guard handout => if handout.dropped then handout.available else call.cursor
    | _ => call.cursor

theorem eventGuardLen_eq {sequence available : Int} (hlo : 0 ≤ sequence)
    (hhi : sequence ≤ available + 1) (hMax : available ≤ i64Max) :
    eventGuardLen sequence available = (seqRange sequence available).length := by
  rw [eventGuardLen, length_seqRange]
  rcases Int.lt_or_le i64Max (available - sequence + 1) with hlt | hle
  · -- the whole of `0..=i64::MAX`, which does not fit
    obtain rfl : sequence = 0 := by omega
    obtain rfl : available = i64Max := by omega
    decide
  · exact asUnsigned_of_nonneg (by omega) hle

theorem Polls.cursor_eq {calls : List (PollCall E)} {cursor : Int} (h : Polls calls cursor) :
    cursor = cursorAfter calls := by
  cases h with
  | nil => rfl
  | failed _ => rfl
  | dropped _ _ hDropped => simp [cursorAfter, hDropped]

/-- Every call starts where the call before has left the cursor. -/
theorem Polls.consecutive {calls : List (PollCall E)} {cursor : Int} (h : Polls calls cursor)
    {later earlier : List (PollCall E)} {call : PollCall E}
    (hSplit : calls = later ++ call :: earlier) :
    call.cursor = cursorAfter earlier := by
  induction h generalizing later with
  | nil => simp at hSplit
  | failed hPolls ih =>
    cases later with
    | nil =>
      obtain ⟨rfl, rfl⟩ := List.cons.inj hSplit
      exact hPolls.cursor_eq
    | cons _ later => exact ih (List.cons.inj hSplit).2
  | dropped hPolls _ _ ih =>
    cases later with
    | nil =>
      obtain ⟨rfl, rfl⟩ := List.cons.inj hSplit
      exact hPolls.cursor_eq
    | cons _ later => exact ih (List.cons.inj hSplit).2

/-- A call in progress as well. -/
theorem ConsumerPc.Polled.consecutive {pc : ConsumerPc} {calls : List (PollCall E)} {cursor : Int}
    (h : pc.Polled calls cursor) :
    cursor = cursorAfter calls ∧ ∀ later call earlier, calls = later ++ call :: earlier →
      call.cursor = cursorAfter earlier := by
  have hLatest : ∀ {earlier : List (PollCall E)} {limit : Nat} {outcome : PollOutcome E},
      Polls earlier cursor → ∀ later call earlier',
        ⟨limit, cursor, outcome⟩ :: earlier = later ++ call :: earlier' →
          call.cursor = cursorAfter earlier' := by
    intro earlier limit outcome hPolls later call earlier' hSplit
    cases later with
    | nil =>
      obtain ⟨rfl, rfl⟩ := List.cons.inj hSplit
      exact hPolls.cursor_eq
    | cons _ later => exact hPolls.consecutive (List.cons.inj hSplit).2
  cases pc with
  | idle last => exact ⟨Polls.cursor_eq h, fun later call earlier => Polls.consecutive h⟩
  | readShutdown at_ limit =>
    obtain ⟨-, earlier, hPolls, rfl⟩ := h
    exact ⟨rfl, hLatest hPolls⟩
  | getAvailable at_ limit g =>
    obtain ⟨-, earlier, hPolls, rfl⟩ := h
    exact ⟨rfl, hLatest hPolls⟩
  | guard q v =>
    obtain ⟨earlier, limit, handout, hPolls, rfl, -, hDropped, -⟩ := h
    exact ⟨by simp [cursorAfter, hDropped], hLatest hPolls⟩
  | _ => exact h.elim

/-- What the calls of poller `c` hand out, seen in one reachable state. -/
structure PollingSound (R : RingSize) (chain : BuildChain)
    (step : System P E → Act A → Option (System P E × List (Event E))) (c : Nat)
    (calls : List (PollCall E)) (tr : List (Event E)) (s : System P E) : Prop where
  /-- A guard is the window of at most `limit` sequences behind the cursor that
  the barrier's answer allows; what it yields is published, and done with by the
  stage before. -/
  window : ∀ call ∈ calls, ∀ handout, call.outcome = .guard handout →
    handout.Ok call.limit call.cursor ∧ handout.yielded.length ≤ call.limit ∧
      (∀ t, 0 ≤ t → t ≤ handout.available → t ∈ flips tr) ∧
      ∀ c', chain.Before c' c → handout.available ≤ s.memory.consumerCursors c'
  /-- An open guard yields the next sequence of its window until it has yielded
  them all. -/
  next : ∀ q v, s.consumers c = .guard q v →
    (∃ handout limit earlier,
      calls = ⟨limit, s.memory.consumerCursors c, .guard handout⟩ :: earlier ∧
      handout.available = v ∧
      handout.yielded.map Prod.fst ++ seqRange q v = seqRange handout.sequence v) ∧
    eventGuardLen q v = (seqRange q v).length ∧
    ∃ s', step s (.consumer c .next) =
      some (s', if q ≤ v then [.yielded c q (s.memory.slots (R.slot q))] else [])
  /-- Only dropping a guard moves the cursor, forward to the end of its window. -/
  moves : ∀ act s' es, step s act = some (s', es) →
    s'.memory.consumerCursors c ≠ s.memory.consumerCursors c →
      act = .consumer c .dropGuard ∧ s.memory.consumerCursors c < s'.memory.consumerCursors c ∧
        ∃ handout limit earlier,
          calls = ⟨limit, s.memory.consumerCursors c, .guard handout⟩ :: earlier ∧
          s'.memory.consumerCursors c = handout.available
  /-- A call changes nothing, whatever it returns. -/
  quiet : ∀ act s' es, step s (.consumer c act) = some (s', es) → act ≠ .dropGuard →
    s'.memory = s.memory
  /-- Every call, also after one that failed, starts where the one before has
  left the cursor. -/
  consecutive : s.memory.consumerCursors c = cursorAfter calls ∧
    ∀ later call earlier, calls = later ++ call :: earlier → call.cursor = cursorAfter earlier
  /-- The windows one after the other are the sequences up to the cursor. -/
  windows : calls.reverse.flatMap PollCall.window = seqRange 0 (s.memory.consumerCursors c)
  /-- No limit overflows, and within the documented number of events nothing else does. -/
  inI64 : (∀ limit, InI64 (saturatingAddUnsigned (s.memory.consumerCursors c) limit)) ∧
    (i64Max ∉ flips tr → InI64 (s.memory.consumerCursors c + 1) ∧
      ∀ q v, s.consumers c = .guard q v →
        InI64 q ∧ InI64 v ∧ InI64 (v - q) ∧ InI64 (v - q + 1) ∧ (q ≤ v → InI64 (q + 1)))

section

variable {R : RingSize} {chain : BuildChain} {w : Wiring} {producerBarrier : Barrier}
  {step : System P E → Act A → Option (System P E × List (Event E))} {ok : Act A → Prop}
  {s₀ s : System P E} {c : Nat} {spec : ConsumerSpec}
  {ts : List (Transition (System P E) (Act A) (Event E))}

/-- A window has at most as many sequences as its limit says. -/
theorem Handout.Ok.length_le {handout : Handout E} {limit : Nat} {cursor : Int}
    (h : handout.Ok limit cursor) : handout.yielded.length ≤ limit := by
  have hLength := h.yielded.length_le
  rw [List.length_map, length_seqRange] at hLength
  have := h.sequence
  have := h.available
  omega

/-- A step that moves the cursor of a poller drops its guard. -/
theorem ConsumerPc.Polled.moves {m m' : Memory E} {b : Barrier} {pc pc' : ConsumerPc}
    {act : ConsumerAct} {es : List (Event E)} {calls : List (PollCall E)}
    (h : pc.Polled calls (m.consumerCursors c))
    (hs : consumerStep R b c m pc act = some (m', pc', es)) :
    m' = m ∧ act ≠ .dropGuard ∨ act = .dropGuard ∧ ∃ handout limit earlier,
      calls = ⟨limit, m.consumerCursors c, .guard handout⟩ :: earlier ∧
      m' = m.storeCursor c handout.available ∧ m.consumerCursors c ≤ handout.available := by
  cases act with
  | dropGuard =>
    cases pc with
    | guard q v =>
      obtain ⟨earlier, limit, handout, -, rfl, hOk, -, rfl, -⟩ := h
      cases hs
      exact .inr ⟨rfl, handout, limit, earlier, rfl, rfl, hOk.cursor_le⟩
    | _ => cases hs
  | next =>
    refine .inl ⟨?_, by simp⟩
    cases pc with
    | guard q v =>
      simp only [consumerStep] at hs
      split at hs <;> cases hs <;> rfl
    | _ => cases hs
  | tick =>
    refine .inl ⟨?_, by simp⟩
    cases consumerStep_cases hs with
    | store => exact h.elim
    | dropGuard => cases hs
    | _ => rfl
  | poll => exact .inl ⟨(consumerStep_limit hs rfl).2.1, by simp⟩
  | pollTake limit => exact .inl ⟨(consumerStep_limit hs rfl).2.1, by simp⟩

/-- The calls of a poller, in either disruptor. -/
theorem Disruptor.pollingSound (hD : Disruptor R chain.topology w producerBarrier step ok s₀)
    (hPath : Path step ok s₀ ts s) (hSpec : w.consumers[c]? = some spec)
    (hKind : spec.kind = .poller) :
    PollingSound R chain step c (pollCalls R c ts) (ts.flatMap Transition.events) s := by
  have hPolled := hD.polled hPath hSpec hKind
  have hMem := hD.wired.mem hSpec
  obtain ⟨claimed, hC, -⟩ := hD.consistent hPath.run
  have hGe : -1 ≤ s.memory.consumerCursors c := hC.inv.cursor_ge c hMem
  have hCursor : s.memory.consumerCursors c ≤ (s.consumers c).granted (s.memory.consumerCursors c) :=
    hC.inv.cursor_le_granted c hMem
  have hGranted : (s.consumers c).granted (s.memory.consumerCursors c) ≤ claimed :=
    hC.inv.granted_le_claimed hMem
  have hMax := hC.claimed_le
  -- what is granted is published
  have hPublished : ∀ t, 0 ≤ t → t ≤ (s.consumers c).granted (s.memory.consumerCursors c) →
      t ∈ flips (ts.flatMap Transition.events) := by
    intro t hlo hhi
    have := hC.inv.granted_published hMem hhi
    simp only [System.pipeline, mem_publishedBy] at this
    exact this.resolve_left (by omega)
  have hStep : ∀ {act s' es}, step s (.consumer c act) = some (s', es) → ∃ b pc,
      consumerStep R b c s.memory (s.consumers c) act = some (s'.memory, pc, es) := by
    intro act s' es hs
    rw [hD.step_consumer] at hs
    obtain ⟨spec', memory, pc, -, hStep, rfl⟩ := System.stepConsumer_eq hs
    exact ⟨_, pc, hStep⟩
  refine ⟨fun call hCall handout hGuard => ?_, fun q v hPc => ?_, fun act s' es hs hne => ?_,
    fun act s' es hs hAct => ?_, hPolled.consecutive, hPolled.windows, fun limit => ?_,
    fun hLimit => ⟨?_, fun q v hPc => ?_⟩⟩
  · obtain ⟨hOk, hLe⟩ := hPolled.handout hCall hGuard
    refine ⟨hOk, hOk.length_le, fun t hlo hhi => hPublished t hlo (hhi.trans hLe), ?_⟩
    intro c' hBefore
    obtain ⟨hMem', -, hlt⟩ := hBefore.stages
    have hOrder : (s.consumers c).granted (s.memory.consumerCursors c) ≤ _ :=
      hC.inv.granted_le_cursor hMem' hMem hlt
    exact hLe.trans hOrder
  · rw [hPc] at hPolled hGranted
    obtain ⟨earlier, limit, handout, -, hCalls, hOk, -, rfl, hlo, hhi, hYielded⟩ := hPolled
    have hFirst := hOk.sequence
    refine ⟨⟨handout, limit, earlier, hCalls, rfl, ?_⟩,
      eventGuardLen_eq (by omega) hhi (hGranted.trans hMax), ?_⟩
    · have hJoin : seqRange handout.sequence (q - 1) ++ seqRange (q - 1 + 1) handout.available =
          seqRange handout.sequence handout.available := seqRange_append (by omega) (by omega)
      rwa [Int.sub_add_cancel, ← hYielded] at hJoin
    · rw [hD.step_consumer]
      simp only [System.stepConsumer, hSpec, hPc, consumerStep]
      by_cases hle : q ≤ handout.available
      · simp [hle, Int.not_lt.mpr hle]
      · simp [hle, Int.not_le.mp hle]
  · cases hD.move hs with
    | @consumer c' act spec memory pc es hSpec' hMove =>
      rcases eq_or_ne c' c with rfl | hOther
      · obtain ⟨b, pc', hOwn⟩ := hStep hs
        rcases hPolled.moves hOwn with ⟨hSame, -⟩ | ⟨rfl, handout, limit, earlier, hCalls, hStore, hLe⟩
        · exact (hne (by rw [hSame])).elim
        · have hNew : memory.consumerCursors c' = handout.available := by
            change memory = _ at hStore
            rw [hStore]
            simp [Memory.storeCursor]
          refine ⟨rfl, ?_, handout, limit, earlier, hCalls, hNew⟩
          show _ < memory.consumerCursors c'
          have : memory.consumerCursors c' ≠ s.memory.consumerCursors c' := hne
          omega
      · exact (hne (hMove.cursor_ne hOther.symm)).elim
    | producer _ hCursors _ => exact (hne (by rw [hCursors])).elim
  · obtain ⟨b, pc, hOwn⟩ := hStep hs
    rcases hPolled.moves hOwn with ⟨hSame, -⟩ | ⟨hDrop, -⟩
    · exact hSame
    · exact (hAct hDrop).elim
  · have : (0 : Int) ≤ i64Max := by decide
    simp only [InI64, saturatingAddUnsigned, i64Min] at *
    omega
  all_goals
    -- the highest sequence that was granted is not `i64::MAX`
    have hBelow : (s.consumers c).granted (s.memory.consumerCursors c) < i64Max := by
      refine lt_of_le_of_ne (hGranted.trans hMax) fun hEq => hLimit ?_
      exact hPublished i64Max (by decide) (le_of_eq hEq.symm)
    simp only [InI64, i64Min, i64Max] at *
  · omega
  · rw [hPc] at hPolled hBelow
    obtain ⟨earlier, limit, handout, -, -, -, -, rfl, hlo, hhi, -⟩ := hPolled
    simp only [ConsumerPc.granted] at hBelow
    omega

end

/-- **Pollers hand out consecutive, bounded windows.** In every run of either
disruptor, for every poller in it and whatever limits its client passes: each
guard is the window `cursor + 1 ..= min(available, cursor + limit)`, of which
iterating it yields the sequences in order; calls change nothing, failed or not;
dropping a guard moves the cursor to the end of its window; and the windows one
after the other are exactly `0..=cursor`. No limit overflows. -/
theorem polling_sound (R : RingSize) (R' : MultiRingSize) (chain : BuildChain) (w w' : Wiring)
    (hBuild : chain.build buildUniProducerUnchecked = some w)
    (hBuild' : chain.build buildMultiProducerUnchecked = some w') (factory : Nat → E) :
    (∀ ts s, Path (UniSystem.step R w) UniAct.InRange (UniSystem.init R w factory) ts s →
      ∀ c spec, w.consumers[c]? = some spec → spec.kind = .poller →
        PollingSound R chain (UniSystem.step R w) c (pollCalls R c ts)
          (ts.flatMap Transition.events) s) ∧
    (∀ ts s, Path (MultiSystem.step R'.toRingSize w') MultiAct.InRange
        (MultiSystem.init R'.toRingSize w' factory) ts s →
      ∀ c spec, w'.consumers[c]? = some spec → spec.kind = .poller →
        PollingSound R'.toRingSize chain (MultiSystem.step R'.toRingSize w') c
          (pollCalls R'.toRingSize c ts) (ts.flatMap Transition.events) s) := by
  constructor
  · intro ts s hPath c spec hSpec hKind
    exact (UniRun.disruptor (BuildChain.wired_uni hBuild) factory).pollingSound hPath hSpec hKind
  · intro ts s hPath c spec hSpec hKind
    exact (MultiRun.disruptor (BuildChain.wired_multi hBuild') factory).pollingSound hPath hSpec
      hKind

/-- A call of `poll_take(limit)` on the poller that returns a guard. -/
def takeTicks (limit : Nat) : List (Act (UniAct Nat)) :=
  [.consumer 0 (.pollTake limit), .consumer 0 .tick, .consumer 0 .tick]

/-- Three events; guards of limit `2`, iterated once, of limit `0`, and of limit
`u64::MAX`, not iterated, and a call that finds nothing. -/
def fourCalls : List (Act (UniAct Nat)) :=
  [.producer (.call (.batchPublish 3 fun k e => e + k))] ++ uniTicks 6 ++
    takeTicks 2 ++ [.consumer 0 .next, .consumer 0 .dropGuard] ++
    takeTicks 0 ++ [.consumer 0 .next, .consumer 0 .dropGuard] ++
    takeTicks u64Max ++ [.consumer 0 .dropGuard] ++ takeTicks 5

theorem polling_sound_four_calls : ∃ ts s,
    Path (UniSystem.step ring4 (pollerThenHandlerWiring .uniProducer)) UniAct.InRange
      (UniSystem.init ring4 (pollerThenHandlerWiring .uniProducer) fun _ => (0 : Nat)) ts s ∧
    (pollCalls ring4 0 ts).reverse.map (fun call => (call.limit, call.cursor)) =
      [(2, -1), (0, 1), (u64Max, 1), (5, 2)] ∧
    (pollCalls ring4 0 ts).reverse.flatMap PollCall.window = [0, 1, 2] := by
  have hRecord : (record (UniSystem.step ring4 (pollerThenHandlerWiring .uniProducer))
      (UniSystem.init ring4 (pollerThenHandlerWiring .uniProducer) fun _ => (0 : Nat))
      fourCalls).any (fun x =>
        (pollCalls ring4 0 x.1).reverse.map (fun call => (call.limit, call.cursor)) =
          [(2, -1), (0, 1), (u64Max, 1), (5, 2)] ∧ x.2.memory.consumerCursors 0 = 2) = true := by
    decide
  obtain ⟨ts, s, hPath, hState⟩ := Path.of_schedule
    (by decide : ∀ a ∈ fourCalls, UniAct.InRange a) hRecord
  obtain ⟨hCalls, hCursor⟩ := of_decide_eq_true hState
  obtain ⟨hUni, -⟩ := polling_sound ring4 ring64 pollerThenHandler
    (pollerThenHandlerWiring .uniProducer) (pollerThenHandlerWiring .multiProducer) rfl rfl
    fun _ => (0 : Nat)
  have hWindows := (hUni ts s hPath 0 _ rfl rfl).windows
  rw [hCursor] at hWindows
  exact ⟨ts, s, hPath, hCalls, hWindows⟩

end Calvera
