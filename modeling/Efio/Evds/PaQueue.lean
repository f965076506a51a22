import Efio.Evds.PQueue

/-!
# `Efio.Evds.PaQueue`: `ev_paqueue`, one atomic access a step

`EvPaQueue` is one queue of `N` lanes with the memory of its nodes and any
number of threads. Each lane is a list with a head, which consumers mark,
and a tail; `enq_counter` and `deq_counter` only spread the calls over the
lanes. A step of a thread is one access to the shared words. As in
`Efio.Evds.Queue`, `malloc` gives any address that is not allocated and
memory is raw. The counters have not wrapped.

`exchanged`, `claims`, `returned` and `seen` only record what has happened:
the elements in the order of the exchanges on the tail of a lane, the
elements in the order in which heads were marked, with the thread and the
lane, what the threads have returned, and the lanes whose tail the current
call of a thread has found `NULL`. An element is the address and the data
of its node.

`EV_YIELD` and the fences change nothing here.
-/

set_option autoImplicit false

namespace Efio.Evds

open Efio.Lib

/-- Where a thread is: between two calls, in `enqueue_evpaq` with its node
`p` and the lane `i`, in the loop of `dequeue_evpaq` with `d_count` and
`try_count`, or behind it with the node `h` it has marked. -/
inductive PaQueuePc where
  | idle (last : Option QueueResult)
  -- `enqueue_evpaq`
  | alloc (data : Nat)
  | enqCount (p : Addr)
  | exchange (p : Addr) (i : Nat)
  | link (p old : Addr) (i : Nat)
  | setHead (p : Addr) (i : Nat)
  -- `dequeue_evpaq`
  | deqCount
  | loadTail (dCount tryCount : Nat)
  | loadHead (dCount : Nat)
  | markHead (dCount : Nat) (h : Addr)
  | loadNext (i : Nat) (h : Addr)
  | testTail (i : Nat) (h next : Addr)
  | clearTail (i : Nat) (h : Addr)
  | spin (i : Nat) (h : Addr)
  | swing (i : Nat) (h next : Addr)
  | readData (h : Addr)
  | free (h : Addr) (data : Nat)
  deriving DecidableEq, Repr

/-- A queue with the memory and the threads that use it. `head` and `tail`
are the fields of the entries of `qa`. -/
structure EvPaQueue where
  N : Nat
  head : Nat → HeadWord
  tail : Nat → Addr
  enqCounter : Nat
  deqCounter : Nat
  mem : Addr → PNode
  live : Addr → Bool
  pc : Nat → PaQueuePc
  exchanged : Nat → List (Addr × Nat)
  claims : List (Nat × Nat × Addr × Nat)
  returned : List (Nat × Addr × Nat)
  seen : Nat → List Nat

namespace EvPaQueue

/-- A queue of `N` lanes, with no thread inside. -/
def init (N : Nat) : EvPaQueue :=
  { N := N
    head := fun _ => ⟨0, false⟩
    tail := fun _ => 0
    enqCounter := 0
    deqCounter := 0
    mem := fun _ => ⟨0, 0⟩
    live := fun _ => false
    pc := fun _ => .idle none
    exchanged := fun _ => []
    claims := []
    returned := []
    seen := fun _ => [] }

/-- `create_evpaq`, whose `get_nearest_power_of_2` is that of `ev_pqueue`.
Beyond `2 ^ 30` the C shift overflows. -/
def create (n : Int) : EvPaQueue := init (nearestPowerOf2 n).toNat

variable (s : EvPaQueue)

/-- The element in the node `a`. -/
def elem (a : Addr) : Addr × Nat := (a, (s.mem a).data)

def goto (t : Nat) (q : PaQueuePc) : EvPaQueue := { s with pc := Function.update s.pc t q }

def store (a : Addr) (n : PNode) : EvPaQueue := { s with mem := Function.update s.mem a n }

def setTail (i : Nat) (a : Addr) : EvPaQueue := { s with tail := Function.update s.tail i a }

def putHead (i : Nat) (h : HeadWord) : EvPaQueue := { s with head := Function.update s.head i h }

/-- `enqueue_evpaq` gets its node from `malloc` and fills it in. -/
def mallocStep (t : Nat) (a : Addr) : Option EvPaQueue :=
  match s.pc t with
  | .alloc data =>
    if a = 0 ∨ s.live a = true then none
    else
      some ({ s.store a { data := data, next := 0 } with
        live := Function.update s.live a true }.goto t (.enqCount a))
  | _ => none

/-- `enqueue_evpaq` -/
def enqueueStep (t : Nat) : PaQueuePc → Option EvPaQueue
  | .enqCount p =>
    some ({ s with enqCounter := s.enqCounter + 1 }.goto t (.exchange p (s.enqCounter % s.N)))
  | .exchange p i =>
    some ({ s.setTail i p with
      exchanged := Function.update s.exchanged i (s.exchanged i ++ [s.elem p]) }.goto t
      (if s.tail i ≠ 0 then .link p (s.tail i) i else .setHead p i))
  | .link p old _ => some ((s.store old { s.mem old with next := p }).goto t (.idle (some .done)))
  | .setHead p i => some ((s.putHead i ⟨p, false⟩).goto t (.idle (some .done)))
  | _ => none

/-- The loop of `dequeue_evpaq` in which a head is claimed. -/
def claimStep (t : Nat) : PaQueuePc → Option EvPaQueue
  | .deqCount => some ({ s with deqCounter := s.deqCounter + 1 }.goto t (.loadTail s.deqCounter 0))
  | .loadTail dCount tryCount =>
    some (
      if s.tail (dCount % s.N) = 0 then
        { s with seen := Function.update s.seen t (s.seen t ++ [dCount % s.N]) }.goto t
          (if tryCount + 1 < s.N then .loadTail (dCount + 1) (tryCount + 1) else .idle (some .null))
      else s.goto t (.loadHead dCount))
  | .loadHead dCount =>
    some (s.goto t (
      -- An enqueue that found the lane empty has not yet stored the head.
      if (s.head (dCount % s.N)).addr = 0 then .loadTail (dCount + 1) 0
      else if (s.head (dCount % s.N)).mark = true then .loadTail (dCount + 1) 0
      else .markHead dCount (s.head (dCount % s.N)).addr))
  | .markHead dCount h =>
    some (
      if s.head (dCount % s.N) = ⟨h, false⟩ then
        { s.putHead (dCount % s.N) ⟨h, true⟩ with
          claims := s.claims ++ [(t, dCount % s.N, s.elem h)] }.goto t (.loadNext (dCount % s.N) h)
      else s.goto t (.loadTail (dCount + 1) 0))
  | _ => none

/-- `dequeue_evpaq` behind the loop. -/
def advanceStep (t : Nat) : PaQueuePc → Option EvPaQueue
  | .loadNext i h => some (s.goto t (.testTail i h (s.mem h).next))
  | .testTail i h next =>
    some (s.goto t (
      if s.tail i = 0 then .idle (some .null)
      else if next = 0 then .clearTail i h
      else .swing i h next))
  | .clearTail i h =>
    some (if s.tail i = h then (s.setTail i 0).goto t (.swing i h 0) else s.goto t (.spin i h))
  | .spin i h => some (s.goto t (if (s.mem h).next = 0 then .spin i h else .swing i h (s.mem h).next))
  | .swing i h next =>
    -- "It is not fatal" when the compare-exchange fails.
    some ((if s.head i = ⟨h, true⟩ then s.putHead i ⟨next, false⟩ else s).goto t (.readData h))
  | .readData h => some (s.goto t (.free h (s.mem h).data))
  | .free h data =>
    some ({ s with
      live := Function.update s.live h false
      returned := s.returned ++ [(t, h, data)] }.goto t (.idle (some (.data data))))
  | _ => none

/-- The next access of the thread `t`. -/
def threadStep (t : Nat) : Option EvPaQueue :=
  (s.enqueueStep t (s.pc t)).or ((s.claimStep t (s.pc t)).or (s.advanceStep t (s.pc t)))

end EvPaQueue

/-- The start of a call. -/
def PQueueCall.startPa : PQueueCall → PaQueuePc
  | .enqueue data => .alloc data
  | .dequeue => .deqCount

/-- The steps of the queue. -/
def EvPaQueue.step (l : PQueueLabel) (s : EvPaQueue) : Option EvPaQueue :=
  match l with
  | .call t c =>
    match s.pc t with
    | .idle _ => some ({ s with seen := Function.update s.seen t [] }.goto t c.startPa)
    | _ => none
  | .malloc t a => s.mallocStep t a
  | .access t => s.threadStep t

end Efio.Evds
