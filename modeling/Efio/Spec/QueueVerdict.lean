import Efio.Spec.QueueFlow

/-!
# `Efio.Spec.QueueVerdict`: when a queue may be called empty

A call that returns `NULL` says that the queue is empty. This can be true
at some instant of the call only; it is `Calm` then: every element whose
enqueue has returned has been claimed.

`WatchedQueue` is a queue with a record of this beside it: the element that
each thread inserts, the elements whose enqueue has returned, and for each
thread whether there was a calm instant in its call. The record changes
nothing in the queue.
-/

set_option autoImplicit false

namespace Efio.Spec

open Efio.Evds

/-- A queue, watched. -/
structure WatchedQueue where
  queue : EvQueue
  element : Nat → Nat × Nat
  finished : List (Nat × Nat)
  calm : Nat → Bool

/-- All these elements have been claimed. -/
def Calm (s : EvQueue) (finished : List (Nat × Nat)) : Prop := ∀ e ∈ finished, e ∈ s.claimed

instance (s : EvQueue) (finished : List (Nat × Nat)) : Decidable (Calm s finished) :=
  inferInstanceAs (Decidable (∀ e ∈ finished, e ∈ s.claimed))

namespace WatchedQueue

/-- A new queue. -/
def create : WatchedQueue :=
  { queue := EvQueue.create
    element := fun _ => (0, 0)
    finished := []
    calm := fun _ => false }

variable (x : WatchedQueue)

/-- An exchange inserts the element of the thread. -/
def inserted : QueueLabel → Nat → Nat × Nat
  | .access t =>
    match x.queue.pc t with
    | .exchange p => Function.update x.element t (x.queue.elem p)
    | _ => x.element
  | _ => x.element

/-- The elements whose enqueue has returned when `s` is reached. -/
def finishedBy (s : EvQueue) : QueueLabel → List (Nat × Nat)
  | .access t => if s.pc t = .idle (some .done) then x.finished ++ [x.element t] else x.finished
  | _ => x.finished

/-- A call starts without a calm instant, and `s` may be one of its
instants. -/
def calmBy (s : EvQueue) (l : QueueLabel) (u : Nat) : Bool :=
  if (s.pc u).isIdle then x.calm u
  else
    let before :=
      match l with
      | .call t _ => x.calm u && t ≠ u
      | _ => x.calm u
    before || Calm s (x.finishedBy s l)

/-- The steps of the queue. -/
def step (l : QueueLabel) (x : WatchedQueue) : Option WatchedQueue :=
  (EvQueue.step l x.queue).map fun s =>
    { queue := s
      element := x.inserted l
      finished := x.finishedBy s l
      calm := x.calmBy s l }

end WatchedQueue

/-- Every thread whose last call has returned `NULL` has had a calm instant
in this call. -/
def Trustworthy (x : WatchedQueue) : Prop :=
  ∀ t, x.queue.pc t = .idle (some .null) → x.calm t = true

/-- The step returns from an enqueue that has linked its node behind another
one. -/
def returnsLinked (s : EvQueue) : QueueLabel → Bool
  | .access t =>
    match s.pc t with
    | .dropInflight _ _ => true
    | _ => false
  | _ => false

/-- The thread has found the tail `NULL` and has yet to store the head. -/
def WaitsForHead (s : EvQueue) (t : Nat) : Prop := ∃ p, role (s.pc t) = .heading p

/-- An enqueue that has linked its node behind another one returns only when
nobody has yet to store the head. -/
def HeadFirst (x : WatchedQueue) (l : QueueLabel) : Prop :=
  returnsLinked x.queue l = true → ∀ u, ¬WaitsForHead x.queue u

end Efio.Spec
