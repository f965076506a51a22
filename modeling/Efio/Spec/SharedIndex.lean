import Efio.Evds.PiQueue
import Mathlib.Data.Multiset.AddSub

/-!
# `Efio.Spec.SharedIndex`: piqueues side by side

`SideBySide` is what several piqueues owe their user: no call leaves an
array, what a piqueue has delivered was put into it, and it answers `NULL`
only when all has been delivered. `IndexFits` is the part of this that the
shared indices leave to the user: before each call the index must fit the
piqueue that is used next.
-/

set_option autoImplicit false

namespace Efio.Spec

open Efio.Lib
open Efio.Evds

/-- Each piqueue works as if it were the only one. -/
structure SideBySide (s : PiQueues) : Prop where
  fault : s.fault = none
  inRange : ∀ u ∈ s.used, InRange (s.queues u.1).N u.2
  delivered : ∀ q, (s.delivered q : Multiset Nat) ≤ s.enqueued q
  null : ∀ q, s.last = some (q, .null) → (s.delivered q : Multiset Nat) = s.enqueued q

/-- The call finds its index inside of the array, and an element to be
enqueued is not `NULL`. -/
def IndexFits (s : PiQueues) : PiLabel → Prop
  | .enqueue q data _ => data ≠ 0 ∧ s.stIndex < (s.queues q).N
  | .dequeue q => 0 < (s.queues q).N ∧ (0 ≤ s.stDindex ∨ (s.queues q).N ∣ s.stDindex)

instance : DecidableRel IndexFits := by
  intro s l
  cases l with
  | enqueue q data a => exact inferInstanceAs (Decidable (data ≠ 0 ∧ s.stIndex < (s.queues q).N))
  | dequeue q =>
    exact inferInstanceAs
      (Decidable (0 < (s.queues q).N ∧ (0 ≤ s.stDindex ∨ (s.queues q).N ∣ s.stDindex)))

end Efio.Spec
