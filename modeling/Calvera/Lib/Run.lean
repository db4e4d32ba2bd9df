import Mathlib.Logic.Basic
import Mathlib.Tactic.Common

/-!
# Runs of a deterministic labelled system

A system is a partial step function `step : σ → α → Option (σ × List ε)`: in
state `s` the action `a` either is impossible or leads to one successor and
emits a list of events. A **run** is a sequence of possible actions, each from
the allowed ones; what it leaves behind is its **trace**, the events in order.

Interleavings of several threads are runs: the action says which thread moves.

Results:

* `Run.induct`   — the invariant rule: initially true and kept by every step.
* `Run.trans`    — runs compose, traces concatenate.
* `Run.of_exec`  — a schedule that can be executed is a run.
* `Path.source`  — what a recorded run says about each of its transitions.
* `Path.of_record` — a schedule that can be executed and recorded is a recorded run.
* `Path.within`  — a thread whose steps lower a rank comes to its end.
* `Drives.unique` — driving one thread alone has at most one outcome.
-/

namespace Calvera.Lib

universe u v w

variable {σ : Type u} {α : Type v} {ε : Type w}

/-- `Run step ok s₀ tr s`: from `s₀`, allowed actions lead to `s` and emit `tr`. -/
inductive Run (step : σ → α → Option (σ × List ε)) (ok : α → Prop) (s₀ : σ) :
    List ε → σ → Prop
  | nil : Run step ok s₀ [] s₀
  | snoc {tr : List ε} {s s' : σ} {a : α} {es : List ε} :
      Run step ok s₀ tr s → ok a → step s a = some (s', es) → Run step ok s₀ (tr ++ es) s'

variable {step : σ → α → Option (σ × List ε)} {ok : α → Prop} {s₀ : σ}

/-- **The invariant rule.** A property of trace and state that holds at the
start and is kept by every allowed step holds after every run. The step may
assume that its source state is itself reached by a run. -/
theorem Run.induct {P : List ε → σ → Prop} (hInit : P [] s₀)
    (hStep : ∀ {tr s a s' es}, Run step ok s₀ tr s → P tr s → ok a →
      step s a = some (s', es) → P (tr ++ es) s')
    {tr : List ε} {s : σ} (h : Run step ok s₀ tr s) : P tr s := by
  induction h with
  | nil => exact hInit
  | snoc hRun hOk hs ih => exact hStep hRun ih hOk hs

/-- A single step is a run. -/
theorem Run.single {s s' : σ} {a : α} {es : List ε} (hOk : ok a)
    (hs : step s a = some (s', es)) : Run step ok s es s' := by
  simpa using Run.nil.snoc hOk hs

/-- Runs compose. -/
theorem Run.trans {tr tr' : List ε} {s s' : σ} (h : Run step ok s₀ tr s)
    (h' : Run step ok s tr' s') : Run step ok s₀ (tr ++ tr') s' := by
  induction h' with
  | nil => simpa using h
  | snoc _ hOk hs ih =>
    rw [← List.append_assoc]
    exact ih.snoc hOk hs

/-- A run under a stronger restriction is a run under a weaker one. -/
theorem Run.mono {ok' : α → Prop} (hle : ∀ a, ok a → ok' a) {tr : List ε} {s : σ}
    (h : Run step ok s₀ tr s) : Run step ok' s₀ tr s := by
  induction h with
  | nil => exact .nil
  | snoc _ hOk hs ih => exact ih.snoc (hle _ hOk) hs

/-- **The simulation rule.** Where every step from related states can be followed
by another program, every run can. -/
theorem Run.simulated {τ : Type*} {step' : τ → α → Option (τ × List ε)} {t₀ : τ}
    {rel : τ → σ → Prop} (hInit : rel t₀ s₀)
    (hStep : ∀ {t s a s' es}, rel t s → step s a = some (s', es) →
      ∃ t', step' t a = some (t', es) ∧ rel t' s')
    {tr : List ε} {s : σ} (h : Run step ok s₀ tr s) : ∃ t, Run step' ok t₀ tr t ∧ rel t s := by
  induction h with
  | nil => exact ⟨t₀, .nil, hInit⟩
  | snoc _ hOk hs ih =>
    obtain ⟨t, hRun, hRel⟩ := ih
    obtain ⟨t', hFollow, hRel'⟩ := hStep hRel hs
    exact ⟨t', hRun.snoc hOk hFollow, hRel'⟩

-- ---------------------------------------------------------------------------
-- Executing a schedule
-- ---------------------------------------------------------------------------

/-- Run a list of actions; `none` when one of them is impossible. -/
def exec (step : σ → α → Option (σ × List ε)) : σ → List α → Option (σ × List ε)
  | s, [] => some (s, [])
  | s, a :: as =>
    match step s a with
    | none => none
    | some (s', es) =>
      match exec step s' as with
      | none => none
      | some (s'', es') => some (s'', es ++ es')

theorem Run.of_exec {as : List α} :
    ∀ {s s' : σ} {tr : List ε}, (∀ a ∈ as, ok a) → exec step s as = some (s', tr) →
      Run step ok s tr s' := by
  induction as with
  | nil =>
    intro s s' tr _ h
    simp only [exec, Option.some.injEq, Prod.mk.injEq] at h
    obtain ⟨rfl, rfl⟩ := h
    exact .nil
  | cons a as ih =>
    intro s s' tr hOk h
    rw [exec] at h
    split at h
    · cases h
    · rename_i s₁ es hs
      split at h
      · cases h
      · rename_i s₂ es' hrest
        simp only [Option.some.injEq, Prod.mk.injEq] at h
        obtain ⟨rfl, rfl⟩ := h
        have hFirst : Run step ok s es s₁ := .single (hOk a (List.mem_cons_self ..)) hs
        exact hFirst.trans (ih (fun b hb => hOk b (List.mem_cons_of_mem _ hb)) hrest)

/-- A schedule that can be executed is a run; `p` is checked of its result. -/
theorem Run.of_schedule {as : List α} {s : σ} {p : σ × List ε → Bool} (hOk : ∀ a ∈ as, ok a)
    (h : (exec step s as).any p = true) :
    ∃ tr s', Run step ok s tr s' ∧ p (s', tr) = true := by
  cases hExec : exec step s as with
  | none => simp [hExec] at h
  | some x =>
    rw [hExec, Option.any_some] at h
    exact ⟨x.2, x.1, .of_exec hOk hExec, h⟩

-- ---------------------------------------------------------------------------
-- Recorded runs
-- ---------------------------------------------------------------------------

/-- One step of a run, with both its ends. -/
structure Transition (σ : Type u) (α : Type v) (ε : Type w) where
  source : σ
  act : α
  events : List ε
  target : σ

/-- A run that records its transitions. -/
inductive Path (step : σ → α → Option (σ × List ε)) (ok : α → Prop) (s₀ : σ) :
    List (Transition σ α ε) → σ → Prop
  | nil : Path step ok s₀ [] s₀
  | snoc {ts : List (Transition σ α ε)} {s s' : σ} {a : α} {es : List ε} :
      Path step ok s₀ ts s → ok a → step s a = some (s', es) →
      Path step ok s₀ (ts ++ [⟨s, a, es, s'⟩]) s'

/-- A recorded run is a run. -/
theorem Path.run {ts : List (Transition σ α ε)} {s : σ} (h : Path step ok s₀ ts s) :
    Run step ok s₀ (ts.flatMap Transition.events) s := by
  induction h with
  | nil => exact .nil
  | snoc _ hOk hs ih =>
    rw [List.flatMap_append, List.flatMap_singleton]
    exact ih.snoc hOk hs

/-- Every transition of a recorded run starts in a state that was reached. -/
theorem Path.source {ts : List (Transition σ α ε)} {s : σ} (h : Path step ok s₀ ts s)
    {t : Transition σ α ε} (hMem : t ∈ ts) :
    ok t.act ∧ step t.source t.act = some (t.target, t.events) ∧
      ∃ tr, Run step ok s₀ tr t.source := by
  induction h with
  | nil => cases hMem
  | snoc hPath hOk hs ih =>
    rcases List.mem_append.mp hMem with hOld | hNew
    · exact ih hOld
    · obtain rfl := List.mem_singleton.mp hNew
      exact ⟨hOk, hs, _, hPath.run⟩

/-- Recorded runs compose. -/
theorem Path.trans {ts ts' : List (Transition σ α ε)} {s s' : σ} (h : Path step ok s₀ ts s)
    (h' : Path step ok s ts' s') : Path step ok s₀ (ts ++ ts') s' := by
  induction h' with
  | nil => simpa using h
  | snoc _ hOk hs ih =>
    rw [← List.append_assoc]
    exact ih.snoc hOk hs

/-- Run a list of actions and record the transitions. -/
def record (step : σ → α → Option (σ × List ε)) : σ → List α → Option (List (Transition σ α ε) × σ)
  | s, [] => some ([], s)
  | s, a :: as =>
    match step s a with
    | none => none
    | some (s', es) =>
      match record step s' as with
      | none => none
      | some (ts, s'') => some (⟨s, a, es, s'⟩ :: ts, s'')

theorem Path.of_record {as : List α} :
    ∀ {s s' : σ} {ts : List (Transition σ α ε)}, (∀ a ∈ as, ok a) →
      record step s as = some (ts, s') → Path step ok s ts s' := by
  induction as with
  | nil =>
    intro s s' ts _ h
    simp only [record, Option.some.injEq, Prod.mk.injEq] at h
    obtain ⟨rfl, rfl⟩ := h
    exact .nil
  | cons a as ih =>
    intro s s' ts hOk h
    rw [record] at h
    split at h
    · cases h
    · rename_i s₁ es hs
      split at h
      · cases h
      · rename_i ts' s₂ hRest
        simp only [Option.some.injEq, Prod.mk.injEq] at h
        obtain ⟨rfl, rfl⟩ := h
        have hFirst : Path step ok s [⟨s, a, es, s₁⟩] s₁ :=
          Path.nil.snoc (hOk a (List.mem_cons_self ..)) hs
        exact hFirst.trans (ih (fun b hb => hOk b (List.mem_cons_of_mem _ hb)) hRest)

/-- A schedule that can be executed is a recorded run; `p` is checked of it. -/
theorem Path.of_schedule {as : List α} {s : σ} {p : List (Transition σ α ε) × σ → Bool}
    (hOk : ∀ a ∈ as, ok a) (h : (record step s as).any p = true) :
    ∃ ts s', Path step ok s ts s' ∧ p (ts, s') = true := by
  cases hRecord : record step s as with
  | none => simp [hRecord] at h
  | some x =>
    rw [hRecord, Option.any_some] at h
    exact ⟨x.1, x.2, .of_record hOk hRecord, h⟩

/-- **The rank rule.** If the steps of one thread lower a rank, and no other
step raises it, then the thread comes to an end within as many of its own steps
as the rank says, plus one, whatever the others do in between. -/
theorem Path.within (P : σ → Prop) (rank : σ → Nat) (mine : α → Bool) (ending : ε → Prop)
    (hStep : ∀ {s a s' es}, P s → ok a → step s a = some (s', es) →
      (∃ e ∈ es, ending e) ∨ P s' ∧ rank s' + (if mine a then 1 else 0) ≤ rank s)
    {ts : List (Transition σ α ε)} {s s' : σ} (h : Path step ok s ts s') (hP : P s)
    (hEnough : rank s < ts.countP fun t => mine t.act) :
    ∃ e ∈ ts.flatMap Transition.events, ending e := by
  -- until it ends, the rank pays for the steps taken
  have hPaid : (∃ e ∈ ts.flatMap Transition.events, ending e) ∨
      P s' ∧ rank s' + ts.countP (fun t => mine t.act) ≤ rank s := by
    clear hEnough
    induction h with
    | nil => exact .inr ⟨hP, Nat.le_refl _⟩
    | snoc _ hOk hs ih =>
      simp only [List.flatMap_append, List.flatMap_singleton, List.countP_append,
        List.countP_singleton]
      rcases ih with ⟨e, hMem, he⟩ | ⟨hP', hLe⟩
      · exact .inl ⟨e, List.mem_append_left _ hMem, he⟩
      · rcases hStep hP' hOk hs with ⟨e, hMem, he⟩ | ⟨hP'', hLess⟩
        · exact .inl ⟨e, List.mem_append_right _ hMem, he⟩
        · exact .inr ⟨hP'', by omega⟩
  rcases hPaid with hDone | ⟨-, hLe⟩
  · exact hDone
  · omega

-- ---------------------------------------------------------------------------
-- Driving one thread to an outcome
-- ---------------------------------------------------------------------------

variable {ρ : Type*}

/-- Repeat `tick` until the events it emits carry an outcome. -/
def drive (tick : σ → Option (σ × List ε)) (outcome : List ε → Option ρ) :
    Nat → σ → Option (ρ × σ)
  | 0, _ => none
  | fuel + 1, s =>
    match tick s with
    | none => none
    | some (s', es) =>
      match outcome es with
      | some r => some (r, s')
      | none => drive tick outcome fuel s'

variable {tick : σ → Option (σ × List ε)} {outcome : List ε → Option ρ}

/-- More fuel does not change an outcome. -/
theorem drive_mono {fuel fuel' : Nat} (hle : fuel ≤ fuel') {s : σ} {x : ρ × σ}
    (h : drive tick outcome fuel s = some x) : drive tick outcome fuel' s = some x := by
  induction fuel generalizing s fuel' with
  | zero => simp [drive] at h
  | succ fuel ih =>
    obtain ⟨k, rfl⟩ : ∃ k, fuel' = k + 1 := ⟨fuel' - 1, by omega⟩
    rw [drive] at h ⊢
    split
    · simp_all
    · rename_i s' es hs
      simp only [hs] at h
      split
      · simp_all
      · rename_i hr
        simp only [hr] at h
        exact ih (by omega) h

/-- Driven alone from `s`, the thread comes to the outcome `r` and leaves `s'`. -/
def Drives (tick : σ → Option (σ × List ε)) (outcome : List ε → Option ρ) (s : σ) (r : ρ)
    (s' : σ) : Prop :=
  ∃ fuel, drive tick outcome fuel s = some (r, s')

namespace Drives

variable {s s' s'' : σ} {es : List ε} {r r' : ρ}

theorem stop (hs : tick s = some (s', es)) (hr : outcome es = some r) :
    Drives tick outcome s r s' :=
  ⟨1, by simp [drive, hs, hr]⟩

theorem advance (hs : tick s = some (s', es)) (hr : outcome es = none)
    (h : Drives tick outcome s' r s'') : Drives tick outcome s r s'' := by
  obtain ⟨fuel, h⟩ := h
  exact ⟨fuel + 1, by simpa [drive, hs, hr] using h⟩

/-- A step without outcome can be left out. -/
theorem advance_iff (hs : tick s = some (s', es)) (hr : outcome es = none) :
    Drives tick outcome s r s'' ↔ Drives tick outcome s' r s'' := by
  refine ⟨fun h => ?_, .advance hs hr⟩
  obtain ⟨fuel, h⟩ := h
  cases fuel with
  | zero => cases h
  | succ fuel => exact ⟨fuel, by simpa [drive, hs, hr] using h⟩

/-- A thread that cannot move comes to no outcome. -/
theorem not_stuck (hs : tick s = none) : ¬ Drives tick outcome s r s' := by
  rintro ⟨fuel, h⟩
  cases fuel with
  | zero => cases h
  | succ fuel => simp [drive, hs] at h

/-- A thread driven alone has at most one outcome, whatever the fuel. -/
theorem unique (h : Drives tick outcome s r s') (h' : Drives tick outcome s r' s'') :
    r = r' ∧ s' = s'' := by
  obtain ⟨fuel, hx⟩ := h
  obtain ⟨fuel', hy⟩ := h'
  have hx' := drive_mono (Nat.le_max_left fuel fuel') hx
  have hy' := drive_mono (Nat.le_max_right fuel fuel') hy
  exact Prod.mk.inj (Option.some.inj (hx'.symm.trans hy'))

/-- The step that shows an outcome settles it. -/
theorem stop_iff (hs : tick s = some (s', es)) (hr : outcome es = some r') :
    Drives tick outcome s r s'' ↔ r = r' ∧ s'' = s' := by
  refine ⟨fun h => h.unique (.stop hs hr), ?_⟩
  rintro ⟨rfl, rfl⟩
  exact .stop hs hr

/-- Two threads that agree wherever one of them passes come to the same outcome. -/
theorem congr {tick' : σ → Option (σ × List ε)} {P : σ → Prop}
    (hSame : ∀ {s}, P s → tick' s = tick s)
    (hKeep : ∀ {s s' es}, P s → tick s = some (s', es) → outcome es = none → P s') (hP : P s) :
    Drives tick' outcome s r s' ↔ Drives tick outcome s r s' := by
  suffices hAll : ∀ fuel, drive tick' outcome fuel s = drive tick outcome fuel s by
    simp only [Drives, hAll]
  intro fuel
  induction fuel generalizing s with
  | zero => rfl
  | succ fuel ih =>
    rw [drive, drive, hSame hP]
    cases hs : tick s with
    | none => rfl
    | some x =>
      obtain ⟨s₁, es⟩ := x
      cases hr : outcome es with
      | some r₁ => simp only [hr]
      | none =>
        simp only [hr]
        exact ih (hKeep hP hs hr)

/-- Driving a thread is a run. -/
theorem run {step : σ → α → Option (σ × List ε)} {ok : α → Prop} {a : α} (hOk : ok a)
    (hTick : ∀ s, tick s = step s a) (h : Drives tick outcome s r s') :
    ∃ tr, Run step ok s tr s' := by
  obtain ⟨fuel, h⟩ := h
  induction fuel generalizing s with
  | zero => cases h
  | succ fuel ih =>
    rw [drive] at h
    cases hs : tick s with
    | none => rw [hs] at h; cases h
    | some x =>
      obtain ⟨s₁, es⟩ := x
      have hFirst : Run step ok s es s₁ := .single hOk (hTick s ▸ hs)
      rw [hs] at h
      cases hr : outcome es with
      | some r₁ =>
        simp only [hr, Option.some.injEq, Prod.mk.injEq] at h
        obtain ⟨-, rfl⟩ := h
        exact ⟨es, hFirst⟩
      | none =>
        simp only [hr] at h
        obtain ⟨tr, hRest⟩ := ih h
        exact ⟨es ++ tr, hFirst.trans hRest⟩

end Drives

/-- The outcome of driving a thread to its next visible step: what it emits there. -/
def emitted : List ε → Option (List ε)
  | [] => none
  | es => some es

variable {s s' s'' : σ} {e : ε} {es es' : List ε}

/-- The thread emits something in its next step. -/
theorem Drives.emit (hs : tick s = some (s', e :: es)) : Drives tick emitted s (e :: es) s' :=
  .stop hs rfl

/-- The thread emits nothing in its next step. -/
theorem Drives.silent (hs : tick s = some (s', [])) (h : Drives tick emitted s' es' s'') :
    Drives tick emitted s es' s'' :=
  .advance hs rfl h

end Calvera.Lib
