import Efio.Evds.PQueue
import Mathlib.Algebra.Group.Int.Defs

/-!
# `Efio.Spec.PQueueAdmission`: whom `ev_pqueue_is_empty` lets in

An enqueue raises `ub_count` when it starts and `lb_count` when it has its
ticket. A dequeue is admitted when it takes one off a positive `lb_count`;
a tester that finds it used up puts its one back.

`WatchedPQueue` is a queue with a record of this beside it: how many
enqueues have raised each counter, how many dequeues have been admitted,
and for each thread whether its call had an instant at which every enqueue
that had raised `ub_count` was matched by an admitted dequeue. The record
changes nothing in the queue.
-/

set_option autoImplicit false

namespace Efio.Spec

open Efio.Evds

/-- The thread is between two calls. -/
def isBetween : PQueuePc → Bool
  | .idle _ => true
  | _ => false

/-- A queue, watched. -/
structure WatchedPQueue where
  queue : EvPQueue
  raised : Nat
  permitted : Nat
  admitted : Nat
  matched : Nat → Bool

namespace WatchedPQueue

/-- A queue with the record of its start. -/
def start (s : EvPQueue) : WatchedPQueue :=
  { queue := s
    raised := 0
    permitted := 0
    admitted := 0
    matched := fun _ => false }

variable (x : WatchedPQueue)

/-- The enqueues that have raised `ub_count`. -/
def raisedBy : PQueueLabel → Nat
  | .access t =>
    match x.queue.pc t with
    | .ubInc _ => x.raised + 1
    | _ => x.raised
  | _ => x.raised

/-- The enqueues that have raised `lb_count`. -/
def permittedBy : PQueueLabel → Nat
  | .access t =>
    match x.queue.pc t with
    | .lbInc _ _ => x.permitted + 1
    | _ => x.permitted
  | _ => x.permitted

/-- The dequeues that have been admitted when `s` is reached. -/
def admittedBy (s : EvPQueue) : PQueueLabel → Nat
  | .access t =>
    match x.queue.pc t, s.pc t with
    | .decLb, .deqCount => x.admitted + 1
    | _, _ => x.admitted
  | _ => x.admitted

/-- A call starts without a matched instant, and `s` may be one of its
instants. -/
def matchedBy (s : EvPQueue) (l : PQueueLabel) (u : Nat) : Bool :=
  if isBetween (s.pc u) then x.matched u
  else
    let before :=
      match l with
      | .call t _ => x.matched u && t ≠ u
      | _ => x.matched u
    before || x.raisedBy l ≤ x.admittedBy s l

/-- The steps of the queue. -/
def step (l : PQueueLabel) (x : WatchedPQueue) : Option WatchedPQueue :=
  (EvPQueue.step l x.queue).map fun s =>
    { queue := s
      raised := x.raisedBy l
      permitted := x.permittedBy l
      admitted := x.admittedBy s l
      matched := x.matchedBy s l }

end WatchedPQueue

/-- Admission is exact. -/
structure ExactAdmission (x : WatchedPQueue) : Prop where
  admitted : x.admitted ≤ x.permitted
  matched : ∀ t, x.queue.pc t = .idle (some .null) → x.matched t = true

/-- `n` is a value of an `int`. -/
def IsInt (n : Int) : Prop := -2 ^ 31 ≤ n ∧ n < 2 ^ 31

instance (n : Int) : Decidable (IsInt n) := inferInstanceAs (Decidable (-2 ^ 31 ≤ n ∧ n < 2 ^ 31))

/-- The access of a thread does not make a counter wrap around. -/
def NoWrap (s : EvPQueue) : PQueuePc → Prop
  | .ubInc _ => IsInt (s.ubCount + 1)
  | .lbInc _ _ | .incLb => IsInt (s.lbCount + 1)
  | .decLb => IsInt (s.lbCount - 1)
  | .ubDec _ => IsInt (s.ubCount - 1)
  | _ => True

/-- The step does not make a counter wrap around. -/
def CountersFit (x : WatchedPQueue) : PQueueLabel → Prop
  | .access t => NoWrap x.queue (x.queue.pc t)
  | _ => True

instance : DecidableRel CountersFit := by
  intro x l
  cases l with
  | access t =>
    show Decidable (NoWrap x.queue (x.queue.pc t))
    cases x.queue.pc t <;> unfold NoWrap <;> infer_instance
  | _ => exact inferInstanceAs (Decidable True)

end Efio.Spec
