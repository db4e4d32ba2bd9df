import Calvera.Code.Barrier

/-!
# Calvera — what a run shows

A run of the model leaves a trace of events: what was claimed, refused,
written and published, what each handler and guard was given, and what the
calls returned. The history that a property talks about (which sequences were
flipped, which claims succeeded, what a consumer observed) is read off the
trace and is no part of the program state.

The errors are those of `src/errors.rs`.
-/

namespace Calvera

/-- `EPolling`. -/
inductive EPolling where
  | noEvents
  | shutdown
  deriving DecidableEq

/-- What a publishing call returned. -/
inductive CallResult where
  /-- `Ok(sequence)` of `try_publish` and `try_batch_publish`. -/
  | ok (sequence : Int)
  /-- `publish` and `batch_publish` return nothing. -/
  | done
  /-- `Err(ERingBufferFull)`. -/
  | ringBufferFull
  /-- `Err(EMissingFreeSlots(missing))`. -/
  | missingFreeSlots (missing : Nat)
  deriving DecidableEq

/-- An event of a run. -/
inductive Event (E : Type) where
  /-- `next_sequences` returned `Ok(upper)`; the closure changes the event at
  `lower + k` by `update k`. -/
  | claimed (handle : Nat) (lower upper : Int) (update : Nat → E → E)
  /-- `next_sequences` returned `Err(EMissingFreeSlots(missing))`. -/
  | refused (handle : Nat) (missing : Nat)
  /-- An addition in `next_sequences` overflowed. -/
  | overflowed (handle : Nat)
  /-- The update closure changed the event at a sequence. -/
  | updated (handle : Nat) (sequence : Int)
  /-- The update closure for `lower..=upper` unwound. -/
  | unwound (handle : Nat) (lower upper : Int)
  /-- One atomic operation made these sequences available. -/
  | published (handle : Nat) (sequences : List Int)
  | returned (handle : Nat) (result : CallResult)
  | shutdownStored (sequence : Int)
  /-- A managed consumer called its handler. -/
  | handled (consumer : Nat) (sequence : Int) (event : E) (endOfBatch : Bool)
  /-- `next` on an `EventGuard` yielded an event. -/
  | yielded (consumer : Nat) (sequence : Int) (event : E)
  /-- An `EventGuard` was dropped with `sequence` the next one to yield. -/
  | guardDropped (consumer : Nat) (sequence available : Int)
  /-- `wait_for_events` returned `None`. -/
  | waitEnded (consumer : Nat)
  /-- `poll_take` returned an error. -/
  | pollFailed (consumer : Nat) (error : EPolling)

variable {E : Type}

/-- A successful claim. -/
structure Claim (E : Type) where
  handle : Nat
  lower : Int
  upper : Int
  update : Nat → E → E

/-- The claim covers sequence `s`. -/
def Claim.Covers (claim : Claim E) (s : Int) : Prop := claim.lower ≤ s ∧ s ≤ claim.upper

-- ---------------------------------------------------------------------------
-- History read off a trace
-- ---------------------------------------------------------------------------

namespace Event

def claim? : Event E → Option (Claim E)
  | .claimed handle lower upper update => some ⟨handle, lower, upper, update⟩
  | _ => none

def sequences : Event E → List Int
  | .published _ sequences => sequences
  | _ => []

/-- What consumer `c` was given by an event. -/
def observed? (c : Nat) : Event E → Option (Int × E)
  | .handled consumer sequence event _ => if consumer = c then some (sequence, event) else none
  | .yielded consumer sequence event => if consumer = c then some (sequence, event) else none
  | _ => none

/-- What a call returned, and to which handle. -/
def returned? : Event E → Option (Nat × CallResult)
  | .returned handle result => some (handle, result)
  | _ => none

/-- The event is a step of a consumer, not of a producer. -/
def OfConsumer : Event E → Prop
  | .handled .. | .yielded .. | .guardDropped .. | .waitEnded .. | .pollFailed .. => True
  | _ => False

end Event

/-- The successful claims of a run, in the order of their steps. -/
def claims (tr : List (Event E)) : List (Claim E) := tr.filterMap Event.claim?

/-- The sequences made available in a run, in order. -/
def flips (tr : List (Event E)) : List Int := tr.flatMap Event.sequences

/-- What consumer `c` observed in a run, in order. -/
def observed (c : Nat) (tr : List (Event E)) : List (Int × E) := tr.filterMap (Event.observed? c)

/-- What a call returned, according to these events. -/
def returned (es : List (Event E)) : Option (Nat × CallResult) := es.findSome? Event.returned?

/-- Sequence `s` was claimed in a call whose closure unwound. -/
def Abandoned (tr : List (Event E)) (s : Int) : Prop :=
  ∃ handle lower upper, Event.unwound handle lower upper ∈ tr ∧ lower ≤ s ∧ s ≤ upper

/-- No update closure unwound. -/
def NoUnwind (tr : List (Event E)) : Prop :=
  ∀ handle lower upper, Event.unwound handle lower upper ∉ tr

@[simp] theorem claims_append (tr es : List (Event E)) :
    claims (tr ++ es) = claims tr ++ claims es := by
  simp [claims]

@[simp] theorem flips_append (tr es : List (Event E)) :
    flips (tr ++ es) = flips tr ++ flips es := by
  simp [flips]

@[simp] theorem observed_append (c : Nat) (tr es : List (Event E)) :
    observed c (tr ++ es) = observed c tr ++ observed c es := by
  simp [observed]

@[simp] theorem claims_nil : claims ([] : List (Event E)) = [] := rfl

@[simp] theorem flips_nil : flips ([] : List (Event E)) = [] := rfl

@[simp] theorem observed_nil (c : Nat) : observed c ([] : List (Event E)) = [] := rfl

@[simp] theorem abandoned_append {tr es : List (Event E)} {s : Int} :
    Abandoned (tr ++ es) s ↔ Abandoned tr s ∨ Abandoned es s := by
  simp only [Abandoned, List.mem_append, or_and_right, exists_or]

@[simp] theorem abandoned_nil {s : Int} : Abandoned ([] : List (Event E)) s ↔ False := by
  simp [Abandoned]

@[simp] theorem abandoned_unwound {h : Nat} {lower upper s : Int} :
    Abandoned ([.unwound h lower upper] : List (Event E)) s ↔ lower ≤ s ∧ s ≤ upper := by
  constructor
  · rintro ⟨handle, lower', upper', hMem, hBounds⟩
    obtain ⟨-, rfl, rfl⟩ := by simpa using hMem
    exact hBounds
  · exact fun hBounds => ⟨h, lower, upper, List.mem_singleton_self _, hBounds⟩

theorem NoUnwind.abandoned {tr : List (Event E)} (h : NoUnwind tr) {s : Int} :
    ¬ Abandoned tr s :=
  fun ⟨handle, lower, upper, hMem, _⟩ => h handle lower upper hMem

theorem NoUnwind.of_append {tr es : List (Event E)} (h : NoUnwind (tr ++ es)) : NoUnwind tr :=
  fun handle lower upper hMem => h handle lower upper (List.mem_append_left _ hMem)

/-- Steps of consumers leave the producers' history alone. -/
theorem history_ofConsumer {es : List (Event E)} (h : ∀ e ∈ es, e.OfConsumer) :
    claims es = [] ∧ flips es = [] ∧ ∀ s, ¬ Abandoned es s := by
  refine ⟨?_, ?_, ?_⟩
  · rw [claims, List.filterMap_eq_nil_iff]
    intro e he
    have := h e he
    cases e <;> simp_all [Event.OfConsumer, Event.claim?]
  · rw [flips, List.flatMap_eq_nil_iff]
    intro e he
    have := h e he
    cases e <;> simp_all [Event.OfConsumer, Event.sequences]
  · rintro s ⟨handle, lower, upper, hMem, -⟩
    exact h _ hMem

/-- Steps of producers show consumers nothing. -/
theorem observed_ofProducer {es : List (Event E)} (h : ∀ e ∈ es, ¬ e.OfConsumer) (c : Nat) :
    observed c es = [] := by
  rw [observed, List.filterMap_eq_nil_iff]
  intro e he
  have := h e he
  cases e <;> simp_all [Event.OfConsumer, Event.observed?]

end Calvera
