import Efio.Evds.LaneScan
import Efio.Evds.PaQueueLanes

/-!
# `Efio.Evds.PiQueue`: several piqueues, used by one thread

A piqueue is an array of `N` queues (`Efio.Evds.Queue`). The indices with
which `enqueue_ev_piqueue` and `dequeue_ev_piqueue` go around, `st_index`
and `st_dindex`, are statics of the file: all piqueues have the same two.
`PiQueues` are any number of piqueues and these indices, used by one
thread, the thread 0 of every queue. A step is a whole call.

An index outside of `gl_array` and a division by 0 end the program.

`used`, `enqueued`, `delivered` and `last` only record what has happened:
the lanes that have been used, what has been put into each piqueue and
been returned from it, and the last call with its result.

`EV_YIELD` and `succ_count` change nothing here.
-/

set_option autoImplicit false

namespace Efio.Evds

open Efio.Lib

namespace EvQueue

/-- The thread 0 makes its accesses until its call returns, less than this
many. -/
def finish : Nat → EvQueue → Option EvQueue
  | 0, _ => none
  | n + 1, s => if (s.pc 0).isIdle then some s else (EvQueue.step (.access 0) s).bind (finish n)

/-- `enqueue`, called by the thread 0 alone; `malloc` returns `a`. -/
def enqueueAlone (data : Nat) (a : Addr) (s : EvQueue) : Option EvQueue :=
  (EvQueue.step (.call 0 (.enqueue data)) s).bind fun s =>
    (EvQueue.step (.malloc 0 a) s).bind (finish 16)

/-- `try_dequeue`, called by the thread 0 alone. -/
def tryDequeueAlone (s : EvQueue) : Option EvQueue :=
  (EvQueue.step (.call 0 (.dequeue .tryDequeue)) s).bind (finish 16)

end EvQueue

/-- What `try_dequeue` has answered; an element that is `NULL` is none. -/
def QueuePc.answer : QueuePc → TryAnswer
  | .idle (some (.data d)) => if d = 0 then .empty else .data d
  | .idle (some .again) => .busy
  | _ => .empty

/-- `struct ev_piqueue_s`, as far as it is used -/
structure PiQueue where
  N : Int
  glArray : Int → EvQueue

/-- `try_dequeue` on a lane; one that does not return is like a lane that
stays busy. -/
def PiQueue.tryDequeue (i : Int) (glArray : Int → EvQueue) : TryAnswer × (Int → EvQueue) :=
  match (glArray i).tryDequeueAlone with
  | none => (.busy, glArray)
  | some lane => ((lane.pc 0).answer, Function.update glArray i lane)

/-- All piqueues, and the statics. -/
structure PiQueues where
  queues : Nat → PiQueue
  stIndex : Int
  stDindex : Int
  fault : Option ScanEnd
  used : List (Nat × Int)
  enqueued : Nat → List Nat
  delivered : Nat → List Nat
  last : Option (Nat × QueueResult)

/-- The calls on the piqueue `q`; the `malloc` of an enqueue returns `a`. -/
inductive PiLabel where
  | enqueue (q data : Nat) (a : Addr)
  | dequeue (q : Nat)
  deriving DecidableEq, Repr

namespace PiQueues

/-- Piqueues that `create_ev_piqueue` has made for `n q` lanes each. -/
def create (n : Nat → Int) : PiQueues :=
  { queues := fun q => ⟨intPowerOf2 (n q), fun _ => EvQueue.create⟩
    stIndex := 0
    stDindex := 0
    fault := none
    used := []
    enqueued := fun _ => []
    delivered := fun _ => []
    last := none }

variable (s : PiQueues)

/-- `enqueue_ev_piqueue`. It uses `st_index` as it is, and reduces it by
the number of its own lanes afterwards. -/
def enqueueEvPiqueue (q data : Nat) (a : Addr) : Option PiQueues :=
  let p := s.queues q
  let lane := p.glArray s.stIndex
  if ¬InRange p.N s.stIndex then
    some { s with fault := some (.outOfBounds s.stIndex), used := s.used ++ [(q, s.stIndex)] }
  else if a = 0 ∨ lane.live a = true then none
  else
    match lane.enqueueAlone data a with
    | none => some { s with fault := some .running }
    | some lane =>
      some { s with
        queues := Function.update s.queues q { p with glArray := Function.update p.glArray s.stIndex lane }
        stIndex := nextIndex p.N s.stIndex
        used := s.used ++ [(q, s.stIndex)]
        enqueued := Function.update s.enqueued q (s.enqueued q ++ [data])
        last := some (q, .done) }

/-- The lanes that a scan has used. -/
def lanesOf (q : Nat) (scan : Scan (Int → EvQueue)) : List (Nat × Int) :=
  scan.visits.map (fun v => (q, v.1)) ++
    match scan.last with
    | .outOfBounds i => [(q, i)]
    | _ => []

/-- `dequeue_ev_piqueue` -/
def dequeue (q : Nat) : Option PiQueues :=
  let p := s.queues q
  let (scan, stDindex) := dequeueEvPiqueue PiQueue.tryDequeue (p.N.toNat + 1) p.N s.stDindex p.glArray
  let s := { s with
    queues := Function.update s.queues q { p with glArray := scan.lanes }
    stDindex := stDindex
    used := s.used ++ lanesOf q scan }
  match scan.last with
  | .null => some { s with last := some (q, .null) }
  | .data d =>
    some { s with
      delivered := Function.update s.delivered q (s.delivered q ++ [d])
      last := some (q, .data d) }
  | e => some { s with fault := some e }

/-- The steps. After a fault there are none. -/
def step (l : PiLabel) (s : PiQueues) : Option PiQueues :=
  if s.fault.isSome then none
  else
    match l with
    | .enqueue q data a => s.enqueueEvPiqueue q data a
    | .dequeue q => s.dequeue q

end PiQueues

end Efio.Evds
