import Efio.Evds.PQueue

/-!
# `Efio.Evds.PaQueueLanes`: the counters of an `ev_paqueue`, which wrap

`enqueue_evpaq` and `dequeue_evpaq` take a lane from a counter of 32 bits;
`dequeue_evpaq` goes on with a copy of it from lane to lane. `PaLanes` are
these counters and the threads. What a thread finds on a lane decides how
it goes on, and may be anything here: `Efio.Evds.PaQueue` has the lanes,
with counters that have not wrapped.

`enqueues` and `dequeues` only record the numbers of calls.
-/

set_option autoImplicit false

namespace Efio.Evds

open Efio.Lib

/-- `get_nearest_power_of_2` with a shift of 32-bit integers: the loop,
with the rounds that are left. -/
def intPowerOf2From (n : Int) : Nat → Int → Int
  | 0, twoToN => twoToN
  | i + 1, twoToN => if twoToN ≥ n then twoToN else intPowerOf2From n i (atomicInt (2 * twoToN))

/-- `get_nearest_power_of_2` with a shift of 32-bit integers -/
def intPowerOf2 (n : Int) : Int := intPowerOf2From n 32 1

/-- What a round of the loop in `dequeue_evpaq` finds on its lane: no tail,
a head that it cannot claim, or a head that it claims. -/
inductive LaneTry where
  | noTail
  | busy
  | claimed
  deriving DecidableEq, Repr

/-- Where a thread is: between two calls, in `enqueue_evpaq` with
`e_count`, at the condition of the loop in `dequeue_evpaq`, or in the loop
on the lane of `d_count`. -/
inductive PaLanesPc where
  | idle
  | enqueue (eCount : Int)
  | test (dCount tryCount : Int)
  | lane (dCount tryCount : Int)
  deriving DecidableEq, Repr

/-- `dequeue_evpaq` behind the access to a lane: `try_count` is set to 0 if
there was a tail. -/
def LaneTry.next (dCount tryCount : Int) : LaneTry → PaLanesPc
  | .noTail => .test dCount tryCount
  | .busy => .test dCount 0
  | .claimed => .idle

/-- The counters and the threads. -/
structure PaLanes where
  N : Int
  enqCounter : Int
  deqCounter : Int
  pc : Nat → PaLanesPc
  enqueues : Nat
  dequeues : Nat

/-- One step of the thread `t`. -/
inductive PaLanesLabel where
  | enqueue (t : Nat)
  | linked (t : Nat)
  | dequeue (t : Nat)
  | test (t : Nat)
  | found (t : Nat) (x : LaneTry)
  deriving DecidableEq, Repr

namespace PaLanes

/-- `create_evpaq`, with no thread inside. -/
def create (n : Int) : PaLanes :=
  { N := intPowerOf2 n
    enqCounter := 0
    deqCounter := 0
    pc := fun _ => .idle
    enqueues := 0
    dequeues := 0 }

variable (s : PaLanes)

def goto (t : Nat) (q : PaLanesPc) : PaLanes := { s with pc := Function.update s.pc t q }

@[simp] theorem goto_pc_self (t : Nat) (q : PaLanesPc) : (s.goto t q).pc t = q := by
  simp only [goto, Function.update_self]

/-- The steps. The index of a lane is `count % N`. -/
def step (l : PaLanesLabel) (s : PaLanes) : Option PaLanes :=
  match l with
  | .enqueue t =>
    match s.pc t with
    | .idle =>
      some ({ s with
        enqCounter := atomicInt (s.enqCounter + 1)
        enqueues := s.enqueues + 1 }.goto t (.enqueue s.enqCounter))
    | _ => none
  | .linked t =>
    match s.pc t with
    | .enqueue _ => some (s.goto t .idle)
    | _ => none
  | .dequeue t =>
    match s.pc t with
    | .idle =>
      -- `d_count--` before the loop
      some ({ s with
        deqCounter := atomicInt (s.deqCounter + 1)
        dequeues := s.dequeues + 1 }.goto t (.test (atomicInt (s.deqCounter - 1)) 0))
    | _ => none
  | .test t =>
    match s.pc t with
    | .test dCount tryCount =>
      some (s.goto t (
        if tryCount < s.N then .lane (atomicInt (dCount + 1)) (tryCount + 1) else .idle))
    | _ => none
  | .found t x =>
    match s.pc t with
    | .lane dCount tryCount => some (s.goto t (LaneTry.next dCount tryCount x))
    | _ => none

end PaLanes

end Efio.Evds
