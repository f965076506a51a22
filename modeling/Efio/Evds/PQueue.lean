import Efio.Evds.Queue
import Mathlib.Algebra.Group.Nat.Defs

/-!
# `Efio.Evds.PQueue`: `ev_pqueue`, one atomic access a step

`EvPQueue` is one queue of `N` lanes with the memory of its nodes and any
number of threads. Each lane is a list with a head and a tail, and two
guards that serve the enqueues and the dequeues of the lane in the order of
their tickets. A step of a thread is one access to the shared words. As in
`Efio.Evds.Queue`, `malloc` gives any address that is not allocated and
memory is raw.

The counters are 32-bit integers and wrap around.

`enqueued`, `dequeues` and `delivered` only record what has happened: the
data in the order of the tickets of the enqueues, the number of tickets
handed to dequeues, and what was returned, with the ticket of the dequeue.

`EV_YIELD` and the fences change nothing here.
-/

set_option autoImplicit false

namespace Efio.Evds

open Efio.Lib

/-- What an `atomic_int` holds after an addition. -/
def atomicInt (n : Int) : Int := n.bmod (2 ^ 32)

/-- `struct __pis` -/
structure PNode where
  data : Nat
  next : Addr
  deriving DecidableEq, Repr

/-- Where a thread is. `eCount` and `dCount` are its tickets, `p` is the new
node of an enqueue and `last` the tail it found; `first` and `second` are
the first two elements a dequeue has seen. -/
inductive PQueuePc where
  | idle (last : Option QueueResult)
  -- `enqueue_ev_pqueue`
  | ubInc (data : Nat)
  | enqCount (data : Nat)
  | lbInc (data : Nat) (eCount : Int)
  | alloc (data : Nat) (eCount : Int)
  | enqEnter (p : Addr) (eCount : Int)
  | exchange (p : Addr) (eCount : Int)
  | enqExit (p last : Addr) (eCount : Int)
  | link (p last : Addr) (eCount : Int)
  -- `ev_pqueue_is_empty`, with `test_dec_retest`
  | testLb
  | decLb
  | incLb
  | testUb
  -- `dequeue_ev_pqueue`
  | deqCount
  | ubDec (dCount : Int)
  | deqEnter (dCount : Int)
  | loadHead (dCount : Int)
  | loadNext (dCount : Int) (first : Addr)
  | storeHead (dCount : Int) (first second : Addr)
  | casTail (dCount : Int) (first : Addr)
  | spin (dCount : Int) (first : Addr)
  | reload (dCount : Int) (first : Addr)
  | restoreHead (dCount : Int) (first second : Addr)
  | deqExit (dCount : Int) (first : Addr)
  | readData (dCount : Int) (first : Addr)
  | free (dCount : Int) (first : Addr) (data : Nat)
  deriving DecidableEq, Repr

/-- A queue with the memory and the threads that use it. `head`, `tail`,
`eGuard` and `dGuard` are the fields of the entries of `gl_array`. -/
structure EvPQueue where
  N : Int
  head : Int → Addr
  tail : Int → Addr
  eGuard : Int → Int
  dGuard : Int → Int
  enqCounter : Int
  deqCounter : Int
  ubCount : Int
  lbCount : Int
  mem : Addr → PNode
  live : Addr → Bool
  pc : Nat → PQueuePc
  enqueued : List Nat
  dequeues : Nat
  delivered : List (Int × Nat)

/-- `get_nearest_power_of_2`: the loop, with the rounds that are left. -/
def nearestPowerOf2From (n : Int) : Nat → Int → Int
  | 0, twoToN => twoToN
  | i + 1, twoToN => if twoToN ≥ n then twoToN else nearestPowerOf2From n i (2 * twoToN)

/-- `get_nearest_power_of_2` -/
def nearestPowerOf2 (n : Int) : Int := nearestPowerOf2From n 32 1

namespace EvPQueue

/-- `init_ev_pqueue_s`, with no thread inside. -/
def init (N : Int) : EvPQueue :=
  { N := N
    head := fun _ => 0
    tail := fun _ => 0
    eGuard := fun i => i - N
    dGuard := fun i => i - N
    enqCounter := 0
    deqCounter := 0
    ubCount := 0
    lbCount := 0
    mem := fun _ => ⟨0, 0⟩
    live := fun _ => false
    pc := fun _ => .idle none
    enqueued := []
    dequeues := 0
    delivered := [] }

/-- `create_ev_pqueue`; with `none` the process has ended. -/
def create (n : Int) : Option EvPQueue :=
  if n > 128 then none else some (init (nearestPowerOf2 n))

variable (s : EvPQueue)

def goto (t : Nat) (q : PQueuePc) : EvPQueue := { s with pc := Function.update s.pc t q }

def store (a : Addr) (n : PNode) : EvPQueue := { s with mem := Function.update s.mem a n }

/-- `index`: the lane of a ticket. -/
def index (N count : Int) : Int := count.tmod N

/-- `enqueue_ev_pqueue` gets its node from `malloc` and fills it in. -/
def mallocStep (t : Nat) (a : Addr) : Option EvPQueue :=
  match s.pc t with
  | .alloc data eCount =>
    if a = 0 ∨ s.live a = true then none
    else
      some ({ s.store a { data := data, next := 0 } with
        live := Function.update s.live a true }.goto t (.enqEnter a eCount))
  | _ => none

/-- `enqueue_ev_pqueue` -/
def enqueueStep (t : Nat) : PQueuePc → Option EvPQueue
  | .ubInc data => some ({ s with ubCount := atomicInt (s.ubCount + 1) }.goto t (.enqCount data))
  | .enqCount data =>
    some ({ s with
      enqCounter := atomicInt (s.enqCounter + 1)
      enqueued := s.enqueued ++ [data] }.goto t (.lbInc data s.enqCounter))
  | .lbInc data eCount =>
    some ({ s with lbCount := atomicInt (s.lbCount + 1) }.goto t (.alloc data eCount))
  | .enqEnter p eCount =>
    -- `FIFO_enter` waits for the previous enqueue on this lane.
    some (if eCount - s.N = s.eGuard (index s.N eCount) then s.goto t (.exchange p eCount) else s)
  | .exchange p eCount =>
    some ({ s with tail := Function.update s.tail (index s.N eCount) p }.goto t
      (.enqExit p (s.tail (index s.N eCount)) eCount))
  | .enqExit p last eCount =>
    some ({ s with eGuard := Function.update s.eGuard (index s.N eCount) eCount }.goto t
      (.link p last eCount))
  | .link p last eCount =>
    some (
      if last = 0 then
        { s with head := Function.update s.head (index s.N eCount) p }.goto t (.idle (some .done))
      else (s.store last { s.mem last with next := p }).goto t (.idle (some .done)))
  | _ => none

/-- `ev_pqueue_is_empty`, up to the decision of `dequeue_ev_pqueue`. -/
def emptyStep (t : Nat) : PQueuePc → Option EvPQueue
  | .testLb => some (s.goto t (if s.lbCount > 0 then .decLb else .testUb))
  | .decLb =>
    some ({ s with lbCount := atomicInt (s.lbCount - 1) }.goto t
      (if s.lbCount ≤ 0 then .incLb else .deqCount))
  | .incLb => some ({ s with lbCount := atomicInt (s.lbCount + 1) }.goto t .testUb)
  | .testUb => some (s.goto t (if 0 < s.ubCount then .testLb else .idle (some .null)))
  | _ => none

/-- `dequeue_ev_pqueue` -/
def dequeueStep (t : Nat) : PQueuePc → Option EvPQueue
  | .deqCount =>
    some ({ s with
      deqCounter := atomicInt (s.deqCounter + 1)
      dequeues := s.dequeues + 1 }.goto t (.ubDec s.deqCounter))
  | .ubDec dCount => some ({ s with ubCount := atomicInt (s.ubCount - 1) }.goto t (.deqEnter dCount))
  | .deqEnter dCount =>
    -- `dequeue_FIFO_enter` waits for the previous dequeue on this lane.
    some (if dCount - s.N = s.dGuard (index s.N dCount) then s.goto t (.loadHead dCount) else s)
  | .loadHead dCount =>
    some (
      if s.head (index s.N dCount) = 0 then s
      else s.goto t (.loadNext dCount (s.head (index s.N dCount))))
  | .loadNext dCount first => some (s.goto t (.storeHead dCount first (s.mem first).next))
  | .storeHead dCount first second =>
    some ({ s with head := Function.update s.head (index s.N dCount) second }.goto t
      (if second = 0 then .casTail dCount first else .deqExit dCount first))
  | .casTail dCount first =>
    some (
      if s.tail (index s.N dCount) = first then
        { s with tail := Function.update s.tail (index s.N dCount) 0 }.goto t (.deqExit dCount first)
      else s.goto t (.spin dCount first))
  | .spin dCount first => some (if (s.mem first).next = 0 then s else s.goto t (.reload dCount first))
  | .reload dCount first => some (s.goto t (.restoreHead dCount first (s.mem first).next))
  | .restoreHead dCount first second =>
    some ({ s with head := Function.update s.head (index s.N dCount) second }.goto t
      (.deqExit dCount first))
  | .deqExit dCount first =>
    some ({ s with dGuard := Function.update s.dGuard (index s.N dCount) dCount }.goto t
      (.readData dCount first))
  | .readData dCount first => some (s.goto t (.free dCount first (s.mem first).data))
  | .free dCount first data =>
    some ({ s with
      live := Function.update s.live first false
      delivered := s.delivered ++ [(dCount, data)] }.goto t (.idle (some (.data data))))
  | _ => none

/-- The next access of the thread `t`. -/
def threadStep (t : Nat) : Option EvPQueue :=
  (s.enqueueStep t (s.pc t)).or ((s.emptyStep t (s.pc t)).or (s.dequeueStep t (s.pc t)))

end EvPQueue

/-- The calls of a thread. -/
inductive PQueueCall where
  | enqueue (data : Nat)
  | dequeue
  deriving DecidableEq, Repr

/-- The start of a call. -/
def PQueueCall.start : PQueueCall → PQueuePc
  | .enqueue data => .ubInc data
  | .dequeue => .testLb

/-- One step of the thread `t`: it starts a call, gets memory from `malloc`,
or makes its next access. -/
inductive PQueueLabel where
  | call (t : Nat) (c : PQueueCall)
  | malloc (t : Nat) (a : Addr)
  | access (t : Nat)
  deriving DecidableEq, Repr

/-- The steps of the queue. -/
def EvPQueue.step (l : PQueueLabel) (s : EvPQueue) : Option EvPQueue :=
  match l with
  | .call t c =>
    match s.pc t with
    | .idle _ => some (s.goto t c.start)
    | _ => none
  | .malloc t a => s.mallocStep t a
  | .access t => s.threadStep t

end Efio.Evds
