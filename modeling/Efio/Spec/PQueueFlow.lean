import Efio.Evds.PQueue
import Efio.Lib.Turns

/-!
# `Efio.Spec.PQueueFlow`: the parts the threads of an `ev_pqueue` play

Three things matter of a thread in `enqueue_ev_pqueue` or
`dequeue_ev_pqueue`: where it is with its ticket (`enqTurn`, `deqTurn`),
which node it has and whether that node is private, on the list of its
lane, or taken off (`prole`), and what it has read (`PReads`).

`TicketFifo` says what the queue is for.
-/

set_option autoImplicit false

namespace Efio.Spec

open Efio.Lib
open Efio.Evds

/-- The part a thread plays. -/
inductive PRole where
  | none
  /-- It has filled in `p` and not yet exchanged it into the tail. -/
  | fresh (p : Addr)
  /-- It is about to store the link from `last` to `p`. -/
  | linking (i : Int) (p last : Addr)
  /-- It found the lane empty and is about to store the head. -/
  | heading (i : Int) (p : Addr)
  /-- It has seen that `a` is the head. -/
  | active (i : Int) (a : Addr)
  /-- It has set the head to `NULL`. -/
  | blanked (i : Int) (a : Addr)
  /-- It has taken `a` off its lane. -/
  | retiring (a : Addr)
  deriving DecidableEq, Repr

def prole (N : Int) : PQueuePc → PRole
  | .enqEnter p _ | .exchange p _ => .fresh p
  | .enqExit p last eCount | .link p last eCount =>
    if last = 0 then .heading (EvPQueue.index N eCount) p
    else .linking (EvPQueue.index N eCount) p last
  | .loadNext dCount a | .storeHead dCount a _ => .active (EvPQueue.index N dCount) a
  | .casTail dCount a | .spin dCount a | .reload dCount a | .restoreHead dCount a _ =>
    .blanked (EvPQueue.index N dCount) a
  | .deqExit _ a | .readData _ a | .free _ a _ => .retiring a
  | _ => .none

/-- The node that nobody else in the same part has. -/
def PRole.token : PRole → Option Addr
  | .none => Option.none
  | .fresh p | .linking _ p _ | .heading _ p => some p
  | .active _ a | .blanked _ a | .retiring a => some a

/-- The node that is on no lane and belongs to the thread alone. -/
def PRole.owned : PRole → Option Addr
  | .fresh p => some p
  | .retiring a => some a
  | _ => Option.none

/-- Where a thread is with the ticket of an enqueue. -/
def enqTurn : PQueuePc → Turn
  | .lbInc _ k | .alloc _ k | .enqEnter _ k => .waiting k
  | .exchange _ k => .entered k
  | .enqExit _ _ k => .moved k
  | .link _ _ k => .past k
  | _ => .outside

/-- Where a thread is with the ticket of a dequeue. -/
def deqTurn : PQueuePc → Turn
  | .ubDec k | .deqEnter k => .waiting k
  | .loadHead k | .loadNext k _ | .storeHead k _ _ | .casTail k _ | .spin k _ | .reload k _
  | .restoreHead k _ _ => .entered k
  | .deqExit k _ => .moved k
  | .readData k _ | .free k _ _ => .past k
  | _ => .outside

/-- `data` is what the enqueue with the ticket `k` put in. -/
def Enqueued (s : EvPQueue) (k : Int) (data : Nat) : Prop :=
  0 ≤ k ∧ s.enqueued[k.toNat]? = some data

/-- What a thread knows of its ticket and of its node. -/
def PReads (s : EvPQueue) : PQueuePc → Prop
  | .lbInc data k | .alloc data k => Enqueued s k data
  | .enqEnter p k | .exchange p k => (s.mem p).next = 0 ∧ Enqueued s k (s.mem p).data
  | .storeHead _ a second => second = 0 ∨ (s.mem a).next = second
  | .reload _ a => (s.mem a).next ≠ 0
  | .restoreHead _ a second => second ≠ 0 ∧ (s.mem a).next = second
  | .deqExit k a | .readData k a => Enqueued s k (s.mem a).data
  | .free k a data => Enqueued s k data ∧ (s.mem a).data = data
  | _ => True

/-! ### What the queue is for -/

/-- Fewer than `2 ^ 31` tickets of each kind have been drawn. -/
def FewOps (s : EvPQueue) : Prop := s.enqueued.length < 2 ^ 31 ∧ s.dequeues < 2 ^ 31

/-- The node whose link an enqueue has yet to write. -/
def writesNext : PQueuePc → Option Addr
  | .enqExit _ last _ | .link _ last _ => if last = 0 then none else some last
  | _ => none

/-- The node a thread is about to read, write or free. -/
def touches : PQueuePc → Option Addr
  | .link _ last _ => if last = 0 then none else some last
  | .loadNext _ a | .spin _ a | .reload _ a | .readData _ a | .free _ a _ => some a
  | _ => none

/-- First in, first out by ticket. The dequeue with the ticket `k` returns
the data of the enqueue with the ticket `k`. Every ticket of a dequeue has
been served once or is the ticket of one thread. Nodes are touched only
while they are allocated, and not freed while their link is outstanding,
and the lane of a ticket is an entry of `gl_array`. -/
structure TicketFifo (s : EvPQueue) : Prop where
  fifo : ∀ k data, (k, data) ∈ s.delivered → Enqueued s k data
  once : (s.delivered.map Prod.fst).Nodup
  drawn : ∀ k data, (k, data) ∈ s.delivered → 0 ≤ k ∧ k < s.dequeues
  kept : ∀ k : Int, 0 ≤ k → k < s.dequeues →
    (∃ data, (k, data) ∈ s.delivered) ∨ ∃ t, (deqTurn (s.pc t)).ticket = some k
  held : ∀ t k, (deqTurn (s.pc t)).ticket = some k →
    0 ≤ k ∧ k < s.dequeues ∧ ∀ data, (k, data) ∉ s.delivered
  alone : ∀ t u k, (deqTurn (s.pc t)).ticket = some k → (deqTurn (s.pc u)).ticket = some k → t = u
  alive : ∀ t a, touches (s.pc t) = some a → s.live a = true
  linked : ∀ t u a, writesNext (s.pc t) = some a → s.live a = true ∧ prole s.N (s.pc u) ≠ .retiring a
  lanes : ∀ t k, (enqTurn (s.pc t)).ticket = some k ∨ (deqTurn (s.pc t)).ticket = some k →
    0 ≤ EvPQueue.index s.N k ∧ EvPQueue.index s.N k < s.N

end Efio.Spec
