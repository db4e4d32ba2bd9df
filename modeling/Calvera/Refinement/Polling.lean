import Calvera.Refinement.Disruptor

/-!
# Refinement — the calls of a poller

To its client an `EventPoller` is a sequence of calls: each one fails, or
returns a guard that is iterated for a while and dropped. `PollCall` records
one call with what the client passed and what it was given; `pollCalls` reads
the records off a recorded run.

`Polls` says what such a sequence of calls is for, without the poller's code: a
call that fails leaves the cursor alone, and a guard is a window of at most
`limit` sequences that starts behind the cursor and leaves it at its end.

* `Polls.windows`         — the windows of the dropped guards, one after the
  other, are the sequences from `0` to the cursor.
* `ConsumerPc.Polled.step` — a step of a poller keeps its calls in order.
* `Disruptor.polled`      — so they are in every run of either disruptor.
-/

namespace Calvera

open Calvera.Lib Calvera.Protocol

variable {E P A : Type} {R : RingSize} {T : Topology Nat} {w : Wiring} {producerBarrier : Barrier}
  {c : Nat}

-- ---------------------------------------------------------------------------
-- Records of calls
-- ---------------------------------------------------------------------------

/-- An `EventGuard` that was returned, and what became of it. -/
structure Handout (E : Type) where
  /-- What the barrier answered. -/
  answer : Int
  /-- `EventGuard::sequence`, as returned. -/
  sequence : Int
  /-- `EventGuard::available`. -/
  available : Int
  /-- What iterating it has yielded. -/
  yielded : List (Int × E)
  dropped : Bool

/-- What a call has come to. -/
inductive PollOutcome (E : Type) where
  | running
  | failed (error : EPolling)
  | guard (handout : Handout E)

/-- A call of `poll` or `poll_take`. -/
structure PollCall (E : Type) where
  limit : Nat
  /-- The cursor of the poller when it was called. -/
  cursor : Int
  outcome : PollOutcome E

/-- The limit of a call; `poll()` is `poll_take(u64::MAX)`. -/
def ConsumerAct.limit? : ConsumerAct → Option Nat
  | .poll => some u64Max
  | .pollTake limit => some limit
  | _ => none

/-- What a step of its poller makes of the latest call. -/
def PollOutcome.after (R : RingSize) (c : Nat) (m : Memory E) (pc pc' : ConsumerPc)
    (es : List (Event E)) : PollOutcome E → PollOutcome E
  | .running =>
    match pc, pc' with
    | _, .idle (some error) => .failed error
    | .getAvailable _ _ g, .guard sequence available =>
      match g.step R m with
      | .inl _ => .running
      | .inr answer => .guard ⟨answer, sequence, available, [], false⟩
    | _, _ => .running
  | .failed error => .failed error
  | .guard handout =>
    match pc' with
    | .guard _ _ => .guard { handout with yielded := handout.yielded ++ observed c es }
    | _ => .guard { handout with dropped := true }

/-- Record one step of poller `c`, the latest call first. -/
def recordPoll (R : RingSize) (c : Nat) (m : Memory E) (pc pc' : ConsumerPc) (act : ConsumerAct)
    (es : List (Event E)) (calls : List (PollCall E)) : List (PollCall E) :=
  match act.limit?, calls with
  | some limit, calls => ⟨limit, m.consumerCursors c, .running⟩ :: calls
  | none, [] => []
  | none, call :: calls =>
    { call with outcome := call.outcome.after R c m pc pc' es } :: calls

/-- The calls of poller `c` in a recorded run, the latest first. -/
def pollCalls (R : RingSize) (c : Nat) (ts : List (Transition (System P E) (Act A) (Event E))) :
    List (PollCall E) :=
  ts.foldl (fun calls t =>
    match t.act with
    | .producer _ => calls
    | .consumer c' act =>
      if c' = c then
        recordPoll R c t.source.memory (t.source.consumers c) (t.target.consumers c) act t.events
          calls
      else calls) []

/-- The sequences that a call took out of the stream: the window of a guard that
was dropped. -/
def PollCall.window (call : PollCall E) : List Int :=
  match call.outcome with
  | .guard handout =>
    if handout.dropped then seqRange handout.sequence handout.available else []
  | _ => []

-- ---------------------------------------------------------------------------
-- What a sequence of calls is for
-- ---------------------------------------------------------------------------

/-- The guard is the window of at most `limit` sequences behind `cursor` that
the barrier's answer allows, and it has yielded its sequences in order. -/
structure Handout.Ok (handout : Handout E) (limit : Nat) (cursor : Int) : Prop where
  answer : cursor < handout.answer
  sequence : handout.sequence = cursor + 1
  available : handout.available = min handout.answer (cursor + limit)
  yielded : handout.yielded.map Prod.fst <+: seqRange handout.sequence handout.available

theorem Handout.Ok.cursor_le {handout : Handout E} {limit : Nat} {cursor : Int}
    (h : handout.Ok limit cursor) : cursor ≤ handout.available := by
  have := h.answer
  have := h.available
  omega

/-- The calls of a poller that is between calls with its cursor at `cursor`,
the latest first. -/
inductive Polls : List (PollCall E) → Int → Prop
  | nil : Polls [] NONE
  | failed {calls : List (PollCall E)} {limit : Nat} {cursor : Int} {error : EPolling} :
      Polls calls cursor → Polls (⟨limit, cursor, .failed error⟩ :: calls) cursor
  | dropped {calls : List (PollCall E)} {limit : Nat} {cursor : Int} {handout : Handout E} :
      Polls calls cursor → handout.Ok limit cursor → handout.dropped = true →
      Polls (⟨limit, cursor, .guard handout⟩ :: calls) handout.available

namespace Polls

variable {calls : List (PollCall E)} {cursor : Int}

theorem cursor_ge (h : Polls calls cursor) : -1 ≤ cursor := by
  induction h with
  | nil => exact le_refl _
  | failed _ ih => exact ih
  | dropped _ hOk _ ih => exact ih.trans hOk.cursor_le

/-- **The windows of the guards are adjacent and disjoint**, and together they
are the sequences from `0` to the cursor. -/
theorem windows (h : Polls calls cursor) :
    calls.reverse.flatMap PollCall.window = seqRange 0 cursor := by
  induction h with
  | nil => rfl
  | failed _ ih => simpa [PollCall.window] using ih
  | @dropped calls limit cursor handout hPolls hOk hDropped ih =>
    have hGe := hPolls.cursor_ge
    rw [List.reverse_cons, List.flatMap_append, ih, List.flatMap_singleton]
    simp only [PollCall.window, hDropped, if_true, hOk.sequence]
    exact seqRange_append (by omega) hOk.cursor_le

/-- Every guard was a window, and the cursor has come to its end. -/
theorem handout (h : Polls calls cursor) {call : PollCall E} (hMem : call ∈ calls)
    {handout : Handout E} (hGuard : call.outcome = .guard handout) :
    handout.Ok call.limit call.cursor ∧ handout.available ≤ cursor := by
  induction h with
  | nil => cases hMem
  | failed _ ih =>
    rcases List.mem_cons.mp hMem with rfl | hMem
    · cases hGuard
    · exact ih hMem
  | dropped _ hOk _ ih =>
    rcases List.mem_cons.mp hMem with rfl | hMem
    · cases hGuard
      exact ⟨hOk, le_refl _⟩
    · exact ⟨(ih hMem).1, (ih hMem).2.trans hOk.cursor_le⟩

end Polls

-- ---------------------------------------------------------------------------
-- Steps of a poller
-- ---------------------------------------------------------------------------

/-- A poller with these calls behind it, the latest perhaps in progress. -/
def ConsumerPc.Polled (calls : List (PollCall E)) (cursor : Int) : ConsumerPc → Prop
  | .idle _ => Polls calls cursor
  | .readShutdown at_ limit | .getAvailable at_ limit _ =>
    at_ = cursor ∧ ∃ earlier, Polls earlier cursor ∧ calls = ⟨limit, cursor, .running⟩ :: earlier
  | .guard sequence available => ∃ earlier limit handout, Polls earlier cursor ∧
      calls = ⟨limit, cursor, .guard handout⟩ :: earlier ∧ handout.Ok limit cursor ∧
      handout.dropped = false ∧ handout.available = available ∧
      cursor < sequence ∧ sequence ≤ available + 1 ∧
      handout.yielded.map Prod.fst = seqRange handout.sequence (sequence - 1)
  | _ => False

variable {b : Barrier} {m m' : Memory E} {pc pc' : ConsumerPc} {act : ConsumerAct}
  {es : List (Event E)} {calls : List (PollCall E)}

/-- A call begins where the poller is idle, and reads its cursor. -/
theorem consumerStep_limit (h : consumerStep R b c m pc act = some (m', pc', es)) {limit : Nat}
    (hCall : act.limit? = some limit) :
    (∃ last, pc = .idle last) ∧ m' = m ∧ pc' = .readShutdown (m.consumerCursors c) limit ∧
      es = [] := by
  cases act with
  | poll =>
    obtain rfl : u64Max = limit := Option.some.inj hCall
    cases pc <;> simp only [consumerStep, reduceCtorEq] at h
    cases h
    exact ⟨⟨_, rfl⟩, rfl, rfl, rfl⟩
  | pollTake limit' =>
    obtain rfl : limit' = limit := Option.some.inj hCall
    cases pc <;> simp only [consumerStep, reduceCtorEq] at h
    cases h
    exact ⟨⟨_, rfl⟩, rfl, rfl, rfl⟩
  | _ => cases hCall

/-- An idle poller moves by a call only. -/
theorem consumerStep_idle {last : Option EPolling}
    (h : consumerStep R b c m (.idle last) act = some (m', pc', es)) :
    ∃ limit, act.limit? = some limit := by
  cases act with
  | poll => exact ⟨_, rfl⟩
  | pollTake limit => exact ⟨_, rfl⟩
  | _ => cases h

/-- **A step of a poller keeps its calls in order.** The barrier's answer is an
`i64`, so the saturating addition of the limit changes nothing. -/
theorem ConsumerPc.Polled.step (h : pc.Polled calls (m.consumerCursors c))
    (hs : consumerStep R b c m pc act = some (m', pc', es))
    (hAnswer : ∀ at_ limit g v, pc = .getAvailable at_ limit g → g.step R m = .inr v → v ≤ i64Max) :
    pc'.Polled (recordPoll R c m pc pc' act es calls) (m'.consumerCursors c) := by
  cases hLimit : act.limit? with
  | some limit =>
    obtain ⟨⟨last, rfl⟩, rfl, rfl, rfl⟩ := consumerStep_limit hs hLimit
    simp only [recordPoll, hLimit]
    exact ⟨rfl, calls, h, rfl⟩
  | none =>
    have hStep := consumerStep_cases hs
    cases hStep with
    | pollTake =>
      obtain ⟨limit, hCall⟩ := consumerStep_idle hs
      cases hLimit.symm.trans hCall
    | pollShutdown hEq =>
      obtain ⟨-, earlier, hPolls, rfl⟩ := h
      simp only [recordPoll, hLimit]
      exact .failed hPolls
    | pollOpen hne =>
      obtain ⟨hAt, earlier, hPolls, rfl⟩ := h
      simp only [recordPoll, hLimit]
      exact ⟨hAt, earlier, hPolls, rfl⟩
    | pollRead hg =>
      obtain ⟨hAt, earlier, hPolls, rfl⟩ := h
      simp only [recordPoll, hLimit]
      exact ⟨hAt, earlier, hPolls, rfl⟩
    | pollMiss hg hlt =>
      obtain ⟨-, earlier, hPolls, rfl⟩ := h
      simp only [recordPoll, hLimit]
      exact .failed hPolls
    | @pollHit at_ limit g v hg hle =>
      obtain ⟨rfl, earlier, hPolls, rfl⟩ := h
      have hMax := hAnswer _ _ _ _ rfl hg
      have hWindow : min v (saturatingAddUnsigned (m.consumerCursors c) limit) =
          min v (m.consumerCursors c + limit) := by
        rw [saturatingAddUnsigned]
        omega
      simp only [recordPoll, hLimit, PollOutcome.after, hg]
      refine ⟨earlier, limit, _, hPolls, rfl, ⟨?_, rfl, hWindow, List.nil_prefix⟩, rfl, rfl, ?_, ?_,
        ?_⟩
      · show m.consumerCursors c < v
        omega
      · omega
      · rw [hWindow]
        omega
      · exact (seqRange_eq_nil (Int.sub_one_lt_of_le (le_refl _))).symm
    | @nextNone q v hlt =>
      obtain ⟨earlier, limit, handout, hPolls, rfl, hOk, hDropped, hv, hlo, hhi, hYielded⟩ := h
      simp only [recordPoll, hLimit, PollOutcome.after, observed_nil, List.append_nil]
      exact ⟨earlier, limit, handout, hPolls, rfl, hOk, hDropped, hv, hlo, hhi, hYielded⟩
    | @nextSome q v hle =>
      obtain ⟨earlier, limit, handout, hPolls, rfl, hOk, hDropped, rfl, hlo, hhi, hYielded⟩ := h
      have hFirst := hOk.sequence
      -- the next sequence of the window
      have hMore : (handout.yielded ++ observed c
          [.yielded c q (m.slots (R.slot q))]).map Prod.fst = seqRange handout.sequence q := by
        rw [List.map_append, hYielded]
        simp only [observed, List.filterMap_cons, Event.observed?, if_true, List.filterMap_nil,
          List.map_cons, List.map_nil]
        have hOne : seqRange handout.sequence (q - 1) ++ seqRange (q - 1 + 1) q =
            seqRange handout.sequence q := seqRange_append (by omega) (by omega)
        rwa [Int.sub_add_cancel, seqRange_self] at hOne
      have hPrefix : seqRange handout.sequence q <+: seqRange handout.sequence handout.available :=
        ⟨_, seqRange_append (by omega) hle⟩
      simp only [recordPoll, hLimit, PollOutcome.after]
      refine ⟨earlier, limit, _, hPolls, rfl, { hOk with yielded := ?_ }, hDropped, rfl, by omega,
        by omega, ?_⟩
      · rw [hMore]
        exact hPrefix
      · rw [hMore, Int.add_sub_cancel]
    | @dropGuard q v =>
      obtain ⟨earlier, limit, handout, hPolls, rfl, hOk, -, rfl, -, -, -⟩ := h
      simp only [recordPoll, hLimit, PollOutcome.after, Memory.storeCursor, Function.update_self]
      exact .dropped hPolls { hOk with } rfl
    | _ => exact h.elim

-- ---------------------------------------------------------------------------
-- Runs
-- ---------------------------------------------------------------------------

/-- A call that has begun, and all before it, as far as they have come. -/
theorem ConsumerPc.Polled.handout {cursor : Int} (h : pc.Polled calls cursor) {call : PollCall E}
    (hMem : call ∈ calls) {handout : Handout E} (hGuard : call.outcome = .guard handout) :
    handout.Ok call.limit call.cursor ∧ handout.available ≤ pc.granted cursor := by
  cases pc with
  | idle last => exact Polls.handout h hMem hGuard
  | readShutdown at_ limit =>
    obtain ⟨-, earlier, hPolls, rfl⟩ := h
    rcases List.mem_cons.mp hMem with rfl | hMem
    · cases hGuard
    · exact hPolls.handout hMem hGuard
  | getAvailable at_ limit g =>
    obtain ⟨-, earlier, hPolls, rfl⟩ := h
    rcases List.mem_cons.mp hMem with rfl | hMem
    · cases hGuard
    · exact hPolls.handout hMem hGuard
  | guard q v =>
    obtain ⟨earlier, limit, handout', hPolls, rfl, hOk, -, rfl, -⟩ := h
    rcases List.mem_cons.mp hMem with rfl | hMem
    · cases hGuard
      exact ⟨hOk, le_refl _⟩
    · exact ⟨(hPolls.handout hMem hGuard).1, (hPolls.handout hMem hGuard).2.trans hOk.cursor_le⟩
  | _ => exact h.elim

/-- The windows of the dropped guards reach to the cursor, also while a call is
in progress. -/
theorem ConsumerPc.Polled.windows {cursor : Int} (h : pc.Polled calls cursor) :
    calls.reverse.flatMap PollCall.window = seqRange 0 cursor := by
  cases pc with
  | idle last => exact Polls.windows h
  | readShutdown at_ limit =>
    obtain ⟨-, earlier, hPolls, rfl⟩ := h
    simpa [PollCall.window] using hPolls.windows
  | getAvailable at_ limit g =>
    obtain ⟨-, earlier, hPolls, rfl⟩ := h
    simpa [PollCall.window] using hPolls.windows
  | guard q v =>
    obtain ⟨earlier, limit, handout, hPolls, rfl, hOk, hDropped, -⟩ := h
    simpa [PollCall.window, hDropped] using hPolls.windows
  | _ => exact h.elim

/-- `stepConsumer` is `consumerStep` on the consumer's own state. -/
theorem System.stepConsumer_eq {s s' : System P E} (h : s.stepConsumer R w c act = some (s', es)) :
    ∃ spec memory pc, w.consumers[c]? = some spec ∧
      consumerStep R spec.dependentBarrier c s.memory (s.consumers c) act = some (memory, pc, es) ∧
      s' = { s with memory := memory, consumers := Function.update s.consumers c pc } := by
  unfold stepConsumer at h
  split at h
  · cases h
  · rename_i spec hSpec
    split at h
    · cases h
    · rename_i memory pc es' hStep
      cases h
      exact ⟨spec, memory, pc, hSpec, hStep, rfl⟩

namespace Disruptor

variable {step : System P E → Act A → Option (System P E × List (Event E))} {ok : Act A → Prop}
  {s₀ s : System P E} {spec : ConsumerSpec}

/-- **The calls of a poller are in order** in every run. -/
theorem polled (hD : Disruptor R T w producerBarrier step ok s₀)
    {ts : List (Transition (System P E) (Act A) (Event E))} (hPath : Path step ok s₀ ts s)
    (hSpec : w.consumers[c]? = some spec) (hKind : spec.kind = .poller) :
    (s.consumers c).Polled (pollCalls R c ts) (s.memory.consumerCursors c) := by
  induction hPath with
  | nil =>
    obtain ⟨factory, producer, rfl⟩ := hD.start
    simp only [System.init, hSpec, ConsumerSpec.start, hKind]
    exact .nil
  | @snoc ts s s' act es hPath hOk hs ih =>
    obtain ⟨claimed, hC, -⟩ := hD.consistent hPath.run
    rw [pollCalls, List.foldl_append, List.foldl_cons, List.foldl_nil, ← pollCalls]
    cases act with
    | producer act =>
      -- nothing of the poller moves
      cases hD.move hs with
      | producer hConsumers hCursors _ =>
        rw [hConsumers, hCursors]
        exact ih
    | consumer c' act =>
      rw [hD.step_consumer] at hs
      obtain ⟨spec', memory, pc, hSpec', hStep, rfl⟩ := System.stepConsumer_eq hs
      rcases eq_or_ne c' c with rfl | hne
      · have hMax : ∀ at_ limit g v, s.consumers c' = .getAvailable at_ limit g →
            g.step R s.memory = .inr v → v ≤ i64Max := fun at_ limit g v hPc hg =>
          (hC.polled_le (hD.wired.mem hSpec) hPc hg).trans hC.claimed_le
        simpa using ih.step hStep hMax
      · have hCursor := (consumerStep_cases hStep).cursor_ne hne.symm
        simpa [hne, hne.symm, hCursor] using ih

end Disruptor

end Calvera
