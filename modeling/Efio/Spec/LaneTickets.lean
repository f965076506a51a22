import Efio.Evds.PaQueueLanes
import Efio.Lib.RoundRobin
import Efio.Spec.PQueueFlow

/-!
# `Efio.Spec.LaneTickets`: which lane a ticket goes to

The counters of `ev_pqueue` and `ev_paqueue` are 32-bit integers. A ticket
is a value that a call has fetched from one, or that `dequeue_evpaq` has
counted on to. Its lane is its remainder by the number of lanes.
-/

set_option autoImplicit false

namespace Efio.Spec

open Efio.Lib
open Efio.Evds

/-- The `k`-th value that a counter gives out, from 0 on. -/
def ticket (k : Nat) : Int := atomicInt k

/-- The counter has not wrapped to the negative numbers at its `k`-th
value, or the remainder is 0. -/
def Fits (N : Int) (k : Nat) : Prop := k % 2 ^ 32 < 2 ^ 31 ∨ N ∣ (k : Int)

/-- The thread `t` has fetched `c` from a counter of an `ev_pqueue`. -/
def HasTicket (s : EvPQueue) (t : Nat) (c : Int) : Prop :=
  (enqTurn (s.pc t)).ticket = some c ∨ (deqTurn (s.pc t)).ticket = some c

/-- The count whose lane a thread of an `ev_paqueue` uses. -/
def laneCount : PaLanesPc → Option Int
  | .enqueue eCount => some eCount
  | .lane dCount _ => some dCount
  | .idle | .test _ _ => none

/-- A number of lanes that one of the queues can be created with. -/
def Produced (N : Int) : Prop :=
  0 < N ∧ ((∃ n s, EvPQueue.create n = some s ∧ s.N = N) ∨ ∃ n, (PaLanes.create n).N = N)

end Efio.Spec
