import Calvera.Code.System

/-!
# Calvera — references into a batch

`try_batch_publish(&'a mut self, ..)` and `batch_publish(&'a mut self, ..)` give
their closure a `MutBatchIter<'a, E>`, which yields `&'a mut E`. The lifetime is
that of the borrow of the handle, not of the closure: these references may
leave the closure, and live until the handle is used again.

`Client` is a disruptor with the references its client has kept. In every step
that takes an event from the iterator of a batch the client chooses whether to
keep the reference; it may write through it at any time. Moving the iterator
itself out of the closure is keeping all that it has still to yield. The closure
of `try_publish` and `publish` is one for every lifetime, so nothing leaves it.
-/

namespace Calvera

open Calvera.Lib

variable {E P A : Type}

/-- A disruptor and what its client can write to. -/
structure Client (P E : Type) where
  system : System P E
  /-- The sequences to whose events the client holds references that borrow handle `h`. -/
  held : Nat → List Int

/-- What can happen next. -/
inductive ClientAct (A E : Type) where
  /-- A step of the disruptor. If it takes an event from the iterator of a
  batch, `keep` tells whether the client keeps the reference. -/
  | step (act : Act A) (keep : Bool)
  /-- Write through a reference. -/
  | write (h : Nat) (sequence : Int) (update : E → E)
  /-- Drop a reference. -/
  | release (h : Nat) (sequence : Int)

/-- What the signatures say about an action on a disruptor. -/
structure Signatures (P A E : Type) where
  /-- The handle that is used, which ends all borrows of it. -/
  uses : Act A → Option Nat
  /-- The handle and the sequence of a reference that is yielded. -/
  yields : System P E → Act A → Option (Nat × Int)
  /-- The handle whose batch closure returns. -/
  returns : System P E → Act A → Option Nat

/-- The references after a handle was used, if one was. -/
def endBorrow (held : Nat → List Int) : Option Nat → Nat → List Int
  | some h => Function.update held h []
  | none => held

/-- The references after one was yielded, if one was. -/
def addReference (held : Nat → List Int) (keep : Bool) : Option (Nat × Int) → Nat → List Int
  | some (h, sequence) => if keep then Function.update held h (sequence :: held h) else held
  | none => held

/-- One step of a disruptor with its client. -/
def clientStep (R : RingSize) (sig : Signatures P A E)
    (step : System P E → Act A → Option (System P E × List (Event E))) (c : Client P E) :
    ClientAct A E → Option (Client P E × List (Event E))
  | .step act keep =>
    match step c.system act with
    | none => none
    | some (system, es) =>
      let held := endBorrow c.held (sig.uses act)
      some (⟨system, addReference held keep (sig.yields c.system act)⟩, es)
  | .write h sequence update =>
    if sequence ∈ c.held h then
      let memory := c.system.memory.updateSlot (R.slot sequence) update
      some ({ c with system := { c.system with memory := memory } }, [])
    else none
  | .release h sequence =>
    some ({ c with held := Function.update c.held h ((c.held h).erase sequence) }, [])

/-- The client restricts the disruptor's actions as before. -/
def ClientAct.ok (ok : Act A → Prop) : ClientAct A E → Prop
  | .step act _ => ok act
  | _ => True

instance (ok : Act A → Prop) [DecidablePred ok] :
    (act : ClientAct A E) → Decidable (act.ok ok)
  | .step act _ => inferInstanceAs (Decidable (ok act))
  | .write .. | .release .. => isTrue trivial

/-- Nothing is held yet. -/
def Client.init (system : System P E) : Client P E := ⟨system, fun _ => []⟩

/-- The sequence whose event the iterator yields next. -/
def MutBatchIter.yields (iter : MutBatchIter) : Option Int := iter.next.map Prod.fst

/-- The sequence whose event the closure of a batch is given next. -/
def UniPc.yields : UniPc E → Option Int
  | .updates _ iter _ => iter.yields
  | _ => none

/-- The closure of a batch has taken all events. -/
def UniPc.returns : UniPc E → Bool
  | .updates _ iter _ => iter.next.isNone
  | _ => false

/-- The signatures of `UniProducer`, whose only handle is `0`. -/
def uniSignatures : Signatures (UniProducer E) (UniAct E) E where
  uses
    | .producer (.call _) | .producer .drop => some 0
    | _ => none
  yields s
    | .producer .tick | .producer (.unwind _) => s.producer.pc.yields.map fun t => (0, t)
    | _ => none
  returns s
    | .producer .tick => if s.producer.pc.returns then some 0 else none
    | _ => none

/-- The sequence whose event the closure of a batch is given next. -/
def MultiPc.yields : MultiPc E → Option Int
  | .updates _ iter _ => iter.yields
  | _ => none

/-- The closure of a batch has taken all events. -/
def MultiPc.returns : MultiPc E → Bool
  | .updates _ iter _ => iter.next.isNone
  | _ => false

/-- The signatures of the `MultiProducer` handles. -/
def multiSignatures : Signatures (SharedProducers E) (MultiAct E) E where
  uses
    | .producer (.handle h (.call _)) | .producer (.clone h) | .producer (.drop h) => some h
    | _ => none
  yields s
    | .producer (.handle h .tick) | .producer (.handle h (.unwind _)) =>
      (s.producer.handles h).pc.yields.map fun t => (h, t)
    | _ => none
  returns s
    | .producer (.handle h .tick) => if (s.producer.handles h).pc.returns then some h else none
    | _ => none

/-- A recorded run of a single-producer disruptor with its client. -/
abbrev UniClientPath (R : RingSize) (w : Wiring) (factory : Nat → E) :
    List (Transition (Client (UniProducer E) E) (ClientAct (UniAct E) E) (Event E)) →
      Client (UniProducer E) E → Prop :=
  Path (clientStep R uniSignatures (UniSystem.step R w)) (ClientAct.ok UniAct.InRange)
    (Client.init (UniSystem.init R w factory))

/-- A recorded run of a multi-producer disruptor with its client. -/
abbrev MultiClientPath (R : MultiRingSize) (w : Wiring) (factory : Nat → E) :
    List (Transition (Client (SharedProducers E) E) (ClientAct (MultiAct E) E) (Event E)) →
      Client (SharedProducers E) E → Prop :=
  Path (clientStep R.toRingSize multiSignatures (MultiSystem.step R.toRingSize w))
    (ClientAct.ok MultiAct.InRange) (Client.init (MultiSystem.init R.toRingSize w factory))

/-- When the closure of a batch returns, the client holds no reference into it. -/
def Client.Confined (sig : Signatures P A E) (c : Client P E) : ClientAct A E → Prop
  | .step act _ => ∀ h, sig.returns c.system act = some h → c.held h = []
  | _ => True

instance (sig : Signatures P A E) (c : Client P E) :
    (act : ClientAct A E) → Decidable (c.Confined sig act)
  | .step act _ =>
    match hReturns : sig.returns c.system act with
    | none => isTrue fun _ hSome => nomatch hReturns.symm.trans hSome
    | some h =>
      decidable_of_iff (c.held h = []) ⟨fun hNone _ hSome =>
        Option.some.inj (hReturns.symm.trans hSome) ▸ hNone, fun hAll => hAll h hReturns⟩
  | .write .. | .release .. => isTrue trivial

end Calvera
