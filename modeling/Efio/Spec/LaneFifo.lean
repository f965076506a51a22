import Efio.Evds.BasicQueue

/-!
# `Efio.Spec.LaneFifo`: a plain queue

What a queue of pointers is for: first in, first out, and `NULL` when it is
empty.
-/

set_option autoImplicit false

namespace Efio.Spec

open Efio.Evds

/-- The calls on the data that are in the queue. -/
def fifoCall : LaneCall → List Nat → List Nat × QueueResult
  | .enqueue data, xs => (xs ++ [data.addr], .done)
  | .dequeue, [] => ([], .null)
  | .dequeue, x :: xs => (xs, .data x)

/-- A dequeue finds no element, or one that lies at the address which is
its data. -/
def Addressed (s : BasicQueues) : LaneCall → Prop
  | .enqueue _ => True
  | .dequeue => (s.glArray 0).head ≠ 0 → (s.mem (s.glArray 0).head).data = (s.glArray 0).head

end Efio.Spec
