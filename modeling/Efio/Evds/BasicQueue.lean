import Efio.Evds.LaneScan
import Mathlib.Logic.Function.Basic

/-!
# `Efio.Evds.BasicQueue`: the queues behind a mutex and a spin lock

`ev_mpiqueue` and `ev_spiqueue` have an array of `basic_queue_s`, linked
lists behind a lock each, and differ in the lock, in what
`basic_try_dequeue` hands out, and in what their scans do at a busy lane.
`BasicQueues` is one of them with the memory of its nodes and the static
`st_index`, used by one thread: no lock is ever busy, and the first try of
an enqueue succeeds.

The nodes are never freed. So `malloc` never returns an address again.
-/

set_option autoImplicit false

namespace Efio.Evds

open Efio.Lib

/-- A pointer that is not `NULL`. -/
structure NonNull where
  addr : Nat
  ne_null : addr ≠ 0

/-- What the calls of `malloc` return. -/
structure Malloc where
  result : Nat → Addr
  ne_null : ∀ k, result k ≠ 0
  fresh : ∀ j k, result j = result k → j = k

/-- `struct basic_queue_s`, without its lock -/
structure BasicQueue where
  head : Addr
  tail : Addr
  deriving DecidableEq, Repr

/-- A `struct ev_piqueue_s` with the memory of its nodes. -/
structure BasicQueues where
  N : Int
  glArray : Int → BasicQueue
  stIndex : Int
  mem : Addr → PNode
  mallocs : Nat

/-- The calls. -/
inductive LaneCall where
  | enqueue (data : NonNull)
  | dequeue

namespace BasicQueues

/-- `init_ev_mpiqueue_s` and `init_ev_spiqueue_s`, with a fresh `st_index` -/
def init (N : Int) : BasicQueues :=
  { N := N
    glArray := fun _ => ⟨0, 0⟩
    stIndex := 0
    mem := fun _ => ⟨0, 0⟩
    mallocs := 0 }

variable (s : BasicQueues)

/-- `basic_enqueue` on the lane `i` -/
def basicEnqueue (m : Malloc) (i : Int) (data : Nat) : BasicQueues :=
  let qe := m.result s.mallocs
  let q := s.glArray i
  let mem := Function.update s.mem qe { data := data, next := 0 }
  if q.tail = 0 then
    { s with
      glArray := Function.update s.glArray i ⟨qe, qe⟩
      mem := mem
      mallocs := s.mallocs + 1 }
  else
    { s with
      glArray := Function.update s.glArray i ⟨q.head, qe⟩
      mem := Function.update mem q.tail { mem q.tail with next := qe }
      mallocs := s.mallocs + 1 }

/-- `basic_try_dequeue` on a lane. `handOut` is what it puts into
`*return_data` for the first node; a scan that finds `NULL` there takes the
lane for empty. -/
def basicTryDequeue (handOut : BasicQueues → Addr → Nat) (i : Int) (s : BasicQueues) :
    TryAnswer × BasicQueues :=
  let q := s.glArray i
  if q.head ≠ 0 then
    let next := (s.mem q.head).next
    (if handOut s q.head = 0 then .empty else .data (handOut s q.head),
      { s with glArray := Function.update s.glArray i ⟨next, if next = 0 then 0 else q.tail⟩ })
  else (.empty, s)

/-- `q->head->data`, in `ev_mpiqueue` -/
def headData (s : BasicQueues) (head : Addr) : Nat := (s.mem head).data

/-- `q->head`, in `ev_spiqueue` -/
def headNode (_ : BasicQueues) (head : Addr) : Nat := head

/-- `enqueue_ev_mpiqueue` -/
def enqueueEvMpiqueue (m : Malloc) (data : Nat) : Except ScanEnd BasicQueues :=
  if s.N = 0 then .error .divByZero
  else
    let stIndex := s.stIndex.tmod s.N
    if ¬InRange s.N stIndex then .error (.outOfBounds stIndex)
    else .ok ({ s with stIndex := stIndex }.basicEnqueue m stIndex data)

/-- `enqueue_ev_spiqueue` -/
def enqueueEvSpiqueue (m : Malloc) (data : Nat) : Except ScanEnd BasicQueues :=
  if ¬InRange s.N s.stIndex then .error (.outOfBounds s.stIndex) else .ok (s.basicEnqueue m s.stIndex data)

/-- What a call that scans the lanes returns. -/
def scanned (scan : Scan BasicQueues) : Except ScanEnd (BasicQueues × QueueResult) :=
  match scan.last with
  | .null => .ok (scan.lanes, .null)
  | .data d => .ok (scan.lanes, .data d)
  | e => .error e

/-- A call on an `ev_mpiqueue`. -/
def mpiqueueCall (m : Malloc) (fuel : Nat) : LaneCall → BasicQueues → Except ScanEnd (BasicQueues × QueueResult)
  | .enqueue data, s => (s.enqueueEvMpiqueue m data.addr).map fun s => (s, .done)
  | .dequeue, s => scanned (dequeueEvMpiqueue (basicTryDequeue headData) fuel s.N s)

/-- A call on an `ev_spiqueue`. -/
def spiqueueCall (m : Malloc) (fuel : Nat) : LaneCall → BasicQueues → Except ScanEnd (BasicQueues × QueueResult)
  | .enqueue data, s => (s.enqueueEvSpiqueue m data.addr).map fun s => (s, .done)
  | .dequeue, s => scanned (dequeueEvSpiqueue (basicTryDequeue headNode) fuel s.N s)

end BasicQueues

end Efio.Evds
