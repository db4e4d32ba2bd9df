import Calvera.Lib.Run

/-!
# Specifications and simulations

A **specification** is an initial predicate and a next-state relation. Its
behaviours are the infinite sequences of states that start in an initial state
and in which every step is a step of the specification or leaves the state as
it is.

A run of a labelled system is simulated by a behaviour: to each transition of
the run belongs one step of the behaviour, and the states before and after are
related. What relates them may look at the trace so far.

Results:

* `Spec.Behaviour.always`   — the invariant rule.
* `Path.simulate`           — a simulation, step by step, of a whole run.
-/

namespace Calvera.Lib

universe u v w x

variable {σ : Type u} {α : Type v} {ε : Type w} {τ : Type x}

/-- `Init` and `Next`. -/
structure Spec (τ : Type x) where
  init : τ → Prop
  next : τ → τ → Prop

/-- `b` satisfies `Init ∧ □[Next]_vars`. -/
structure Spec.Behaviour (S : Spec τ) (b : Nat → τ) : Prop where
  init : S.init (b 0)
  step : ∀ i, S.next (b i) (b (i + 1)) ∨ b (i + 1) = b i

/-- **The invariant rule** of a specification. -/
theorem Spec.Behaviour.always {S : Spec τ} {b : Nat → τ} (h : S.Behaviour b) {P : τ → Prop}
    (hInit : ∀ x, S.init x → P x) (hStep : ∀ x y, P x → S.next x y → P y) (i : Nat) : P (b i) := by
  induction i with
  | zero => exact hInit _ h.init
  | succ i ih =>
    rcases h.step i with hNext | hSame
    · exact hStep _ _ ih hNext
    · exact hSame ▸ ih

/-- `b` simulates a recorded run: after `tr`, an action that is possible in `s`
is matched by the step of `b` in the same place. -/
structure Simulates (Sim : List ε → σ → τ → Prop) (Matches : List ε → σ → α → τ → τ → Prop)
    (ts : List (Transition σ α ε)) (s : σ) (b : Nat → τ) : Prop where
  before : ∀ i t, ts[i]? = some t → Sim ((ts.take i).flatMap Transition.events) t.source (b i)
  step : ∀ i t, ts[i]? = some t →
    Matches ((ts.take i).flatMap Transition.events) t.source t.act (b i) (b (i + 1))
  last : Sim (ts.flatMap Transition.events) s (b ts.length)
  /-- After the run nothing happens. -/
  rest : ∀ i, ts.length ≤ i → b i = b ts.length

section Simulates

variable {Sim Sim' : List ε → σ → τ → Prop} {Matches : List ε → σ → α → τ → τ → Prop}
  {ts : List (Transition σ α ε)} {s : σ} {b : Nat → τ}

/-- Less may be said of related states. -/
theorem Simulates.mono (h : Simulates Sim Matches ts s b)
    (hSim : ∀ tr s x, Sim tr s x → Sim' tr s x) : Simulates Sim' Matches ts s b where
  before i t ht := hSim _ _ _ (h.before i t ht)
  step := h.step
  last := hSim _ _ _ h.last
  rest := h.rest

/-- What simulates a run is a behaviour, if transitions are matched by steps or
by none. -/
theorem Simulates.behaviour (h : Simulates Sim Matches ts s b) {S : Spec τ} (hInit : S.init (b 0))
    (hNext : ∀ tr s a x x', Matches tr s a x x' → S.next x x' ∨ x' = x) : S.Behaviour b where
  init := hInit
  step i := by
    rcases Nat.lt_or_ge i ts.length with hlt | hge
    · exact hNext _ _ _ _ _ (h.step i _ (List.getElem?_eq_getElem hlt))
    · exact .inr ((h.rest (i + 1) (Nat.le_succ_of_le hge)).trans (h.rest i hge).symm)

end Simulates

/-- **The simulation rule.** If every step from related states is matched, every
run is simulated. `within` bounds the runs, and holds of a run's beginnings if
it holds of the run. -/
theorem Path.simulate {step : σ → α → Option (σ × List ε)} {ok : α → Prop} {s₀ : σ}
    {Sim : List ε → σ → τ → Prop} {Matches : List ε → σ → α → τ → τ → Prop}
    {within : List ε → σ → Prop} {x₀ : τ} (hInit : Sim [] s₀ x₀)
    (hWithin : ∀ {tr s a s' es}, Run step ok s₀ tr s → ok a → step s a = some (s', es) →
      within (tr ++ es) s' → within tr s)
    (hStep : ∀ {tr s a s' es x}, Run step ok s₀ tr s → ok a → step s a = some (s', es) →
      within (tr ++ es) s' → Sim tr s x → ∃ x', Matches tr s a x x' ∧ Sim (tr ++ es) s' x')
    {ts : List (Transition σ α ε)} {s : σ} (h : Path step ok s₀ ts s)
    (hEnd : within (ts.flatMap Transition.events) s) :
    ∃ b, b 0 = x₀ ∧ Simulates Sim Matches ts s b := by
  induction h with
  | nil => exact ⟨fun _ => x₀, rfl, by simp, by simp, hInit, fun _ _ => rfl⟩
  | @snoc ts s s' a es hPath hOk hs ih =>
    rw [List.flatMap_append, List.flatMap_singleton] at hEnd
    obtain ⟨b, hZero, hb⟩ := ih (hWithin hPath.run hOk hs hEnd)
    obtain ⟨x', hMatches, hSim⟩ := hStep hPath.run hOk hs hEnd hb.last
    obtain ⟨b', hOld, hNew⟩ : ∃ b' : Nat → τ, (∀ i ≤ ts.length, b' i = b i) ∧
        ∀ i, ts.length < i → b' i = x' :=
      ⟨fun i => if i ≤ ts.length then b i else x', fun i hi => if_pos hi,
        fun i hi => if_neg (by omega)⟩
    set new : Transition σ α ε := ⟨s, a, es, s'⟩ with hNewDef
    have hTake : ∀ i ≤ ts.length, (ts ++ [new]).take i = ts.take i := fun i hi =>
      List.take_append_of_le_length hi
    -- a transition is one of those before, or the last one
    have hCases : ∀ i t, (ts ++ [new])[i]? = some t →
        i < ts.length ∧ ts[i]? = some t ∨ i = ts.length ∧ t = new := by
      intro i t ht
      rcases Nat.lt_trichotomy i ts.length with hlt | rfl | hgt
      · rw [List.getElem?_append_left hlt] at ht
        exact .inl ⟨hlt, ht⟩
      · rw [List.getElem?_append_right (Nat.le_refl _), Nat.sub_self] at ht
        exact .inr ⟨rfl, (Option.some.inj ht).symm⟩
      · rw [List.getElem?_eq_none (by simp; omega)] at ht
        cases ht
    refine ⟨b', (hOld 0 (Nat.zero_le _)).trans hZero, ?_, ?_, ?_, ?_⟩
    · intro i t ht
      rcases hCases i t ht with ⟨hlt, hBefore⟩ | ⟨rfl, rfl⟩
      · have hle := Nat.le_of_lt hlt
        rw [hTake i hle, hOld i hle]
        exact hb.before i t hBefore
      · rw [hTake _ (Nat.le_refl _), List.take_length, hOld _ (Nat.le_refl _)]
        exact hb.last
    · intro i t ht
      rcases hCases i t ht with ⟨hlt, hBefore⟩ | ⟨rfl, rfl⟩
      · have hle := Nat.le_of_lt hlt
        rw [hTake i hle, hOld i hle, hOld (i + 1) hlt]
        exact hb.step i t hBefore
      · rw [hTake _ (Nat.le_refl _), List.take_length, hOld _ (Nat.le_refl _),
          hNew _ (Nat.lt_succ_self _)]
        exact hMatches
    · rw [List.flatMap_append, List.flatMap_singleton, List.length_append, List.length_singleton,
        hNew _ (Nat.lt_succ_self _)]
      exact hSim
    · intro i hi
      rw [List.length_append, List.length_singleton] at hi ⊢
      rw [hNew i hi, hNew _ (Nat.lt_succ_self _)]

end Calvera.Lib
