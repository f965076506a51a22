import Efio.Lib.Transition
import Mathlib.Algebra.GroupWithZero.Nat
import Mathlib.Logic.Function.Basic

/-!
# `Efio.Evds.Queue`: `ev_queue`, one atomic access a step

`EvQueue` is one queue with the memory of its nodes and any number of
threads, each between two calls or inside `enqueue`, `dequeue` or
`try_dequeue`. A step of a thread is one access to the shared words: to
`head`, to `tail`, or to a node. `malloc` gives any address that is not
allocated, so the address of a freed node may come back.

Memory is raw: a store through a pointer to a freed node changes whatever
is there now.

`exchanged`, `claimed` and `returned` only record what has happened: the
elements in the order of the exchanges on `tail`, in the order in which
consumers marked the head, and as they were handed out. An element is the
`id` and the `data` of its node.

`EV_YIELD`, the fences and `tex_counter` change nothing here.
-/

set_option autoImplicit false

namespace Efio.Evds

open Efio.Lib

/-- The address of a node; `0` is `NULL`. -/
abbrev Addr := Nat

/-- `EVQ_MAGIC_LIVE` -/
def EVQ_MAGIC_LIVE : Nat := 0xC0FFEE1234ABCDEF

/-- `EVQ_MAGIC_FREED` -/
def EVQ_MAGIC_FREED : Nat := 0xDEADF00DDEADF00D

/-- `struct __s` -/
structure Node where
  data : Nat
  next : Addr
  inflight : Int
  id : Nat
  magic : Nat
  deriving DecidableEq, Repr

/-- `memset(n, 0xA5, sizeof(struct __s))` -/
def Node.scrubbed : Node :=
  { data := 0xA5A5A5A5A5A5A5A5
    next := 0xA5A5A5A5A5A5A5A5
    inflight := -0x5A5A5A5B
    id := 0xA5A5A5A5A5A5A5A5
    magic := 0xA5A5A5A5A5A5A5A5 }

/-- The word `head`: the address of a node, and the low bit with which a
consumer marks it. Addresses of nodes are even. -/
structure HeadWord where
  addr : Addr
  mark : Bool
  deriving DecidableEq, Repr

/-- The two calls that take an element out. -/
inductive Dequeuer where
  | dequeue
  | tryDequeue
  deriving DecidableEq, Repr

/-- What a call returns: nothing, an element, `NULL`, or the `-1` of
`try_dequeue`. -/
inductive QueueResult where
  | done
  | data (d : Nat)
  | null
  | again
  deriving DecidableEq, Repr

/-- Where a thread is: between two calls with the last result, in `enqueue`
with its node `p` and the old tail `old`, or in `dequeue` or `try_dequeue`
with the node `h` it has claimed. -/
inductive QueuePc where
  | idle (last : Option QueueResult)
  | alloc (data : Nat)
  | exchange (p : Addr)
  | count (p old : Addr)
  | raiseInflight (p old : Addr)
  | checkMagic (p old : Addr)
  | link (p old : Addr)
  | dropInflight (p old : Addr)
  | setHead (p : Addr)
  | loadTail (v : Dequeuer)
  | loadHead (v : Dequeuer)
  | markHead (v : Dequeuer) (h : Addr)
  | loadNext (v : Dequeuer) (h : Addr)
  | testTail (v : Dequeuer) (h next : Addr)
  | clearTail (v : Dequeuer) (h : Addr)
  | spin (v : Dequeuer) (h : Addr)
  | swing (v : Dequeuer) (h next : Addr)
  | countOut (h : Addr)
  | readData (v : Dequeuer) (h : Addr)
  | testInflight (h : Addr) (data : Nat)
  | testMagic (h : Addr) (data : Nat)
  | storeMagic (h : Addr) (data : Nat)
  | free (h : Addr) (data : Nat)
  deriving DecidableEq, Repr

/-- The thread is between two calls. -/
def QueuePc.isIdle : QueuePc → Bool
  | .idle _ => true
  | _ => false

/-- The places at which the process ends. -/
inductive QueueAbort where
  | notLive
  | tailNull
  | headCas
  | stillInflight
  | magicInvalid
  deriving DecidableEq, Repr

/-- A queue with the memory and the threads that use it. -/
structure EvQueue where
  head : HeadWord
  tail : Addr
  eCount : Nat
  dCount : Nat
  gid : Nat
  mem : Addr → Node
  live : Addr → Bool
  pc : Nat → QueuePc
  exchanged : List (Nat × Nat)
  claimed : List (Nat × Nat)
  returned : List (Nat × Nat)
  aborted : Option QueueAbort

namespace EvQueue

/-- `create_ev_queue`, with no thread inside. -/
def create : EvQueue :=
  { head := ⟨0, false⟩
    tail := 0
    eCount := 0
    dCount := 0
    gid := 1
    mem := fun _ => Node.scrubbed
    live := fun _ => false
    pc := fun _ => .idle none
    exchanged := []
    claimed := []
    returned := []
    aborted := none }

variable (s : EvQueue)

/-- The element in the node `a`. -/
def elem (a : Addr) : Nat × Nat := ((s.mem a).id, (s.mem a).data)

def goto (t : Nat) (q : QueuePc) : EvQueue := { s with pc := Function.update s.pc t q }

def store (a : Addr) (n : Node) : EvQueue := { s with mem := Function.update s.mem a n }

def abort (e : QueueAbort) : EvQueue := { s with aborted := some e }

@[simp] theorem goto_pc_self (t : Nat) (q : QueuePc) : (s.goto t q).pc t = q := by
  simp only [goto, Function.update_self]

theorem goto_pc_of_ne {t u : Nat} (h : u ≠ t) (q : QueuePc) : (s.goto t q).pc u = s.pc u := by
  simp only [goto, Function.update_of_ne h]

@[simp] theorem store_mem_self (a : Addr) (n : Node) : (s.store a n).mem a = n := by
  simp only [store, Function.update_self]

theorem store_mem_of_ne {a b : Addr} (h : b ≠ a) (n : Node) : (s.store a n).mem b = s.mem b := by
  simp only [store, Function.update_of_ne h]

/-- How a failed attempt to claim the head goes on: `dequeue` starts again,
`try_dequeue` returns. -/
def retry (r : QueueResult) : Dequeuer → QueuePc
  | .dequeue => .loadTail .dequeue
  | .tryDequeue => .idle (some r)

/-- `enqueue` gets its node from `malloc` and fills it in. -/
def mallocStep (t : Nat) (a : Addr) : Option EvQueue :=
  match s.pc t with
  | .alloc data =>
    if a = 0 ∨ s.live a = true then none
    else
      let node : Node :=
        { data := data, next := 0, inflight := 0, id := s.gid, magic := EVQ_MAGIC_LIVE }
      some ({ s.store a node with
        gid := s.gid + 1
        live := Function.update s.live a true }.goto t (.exchange a))
  | _ => none

/-- `enqueue` after `malloc`. -/
def enqueueStep (t : Nat) : QueuePc → Option EvQueue
  | .exchange p =>
    some ({ s with tail := p, exchanged := s.exchanged ++ [s.elem p] }.goto t (.count p s.tail))
  | .count p old =>
    some ({ s with eCount := s.eCount + 1 }.goto t (if old ≠ 0 then .raiseInflight p old else .setHead p))
  | .raiseInflight p old =>
    some ((s.store old { s.mem old with inflight := 1 }).goto t (.checkMagic p old))
  | .checkMagic p old =>
    some (if (s.mem old).magic ≠ EVQ_MAGIC_LIVE then s.abort .notLive else s.goto t (.link p old))
  | .link p old => some ((s.store old { s.mem old with next := p }).goto t (.dropInflight p old))
  | .dropInflight _ old => some ((s.store old { s.mem old with inflight := 0 }).goto t (.idle (some .done)))
  | .setHead p => some ({ s with head := ⟨p, false⟩ }.goto t (.idle (some .done)))
  | _ => none

/-- The loop of `dequeue` and `try_dequeue` in which the head is claimed. -/
def claimStep (t : Nat) : QueuePc → Option EvQueue
  | .loadTail v => some (s.goto t (if s.tail = 0 then .idle (some .null) else .loadHead v))
  | .loadHead v =>
    some (s.goto t (
      -- An enqueue that found the queue empty has not yet stored the head.
      if s.head.addr = 0 then retry .null v
      else if s.head.mark = true then retry .again v
      else .markHead v s.head.addr))
  | .markHead v h =>
    some (
      if s.head = ⟨h, false⟩ then
        { s with head := ⟨h, true⟩, claimed := s.claimed ++ [s.elem h] }.goto t (.loadNext v h)
      else s.goto t (retry .again v))
  | _ => none

/-- `dequeue` and `try_dequeue` from the claim to the new head. -/
def advanceStep (t : Nat) : QueuePc → Option EvQueue
  | .loadNext v h => some (s.goto t (.testTail v h (s.mem h).next))
  | .testTail v h next =>
    some (
      if s.tail = 0 then
        match v with
        | .dequeue => s.abort .tailNull
        | .tryDequeue => s.goto t (.idle (some .null))
      else s.goto t (if next = 0 then .clearTail v h else .swing v h next))
  | .clearTail v h =>
    some (
      if s.tail = h then { s with tail := 0 }.goto t (.swing v h 0)
      else s.goto t (.spin v h))
  | .spin v h =>
    some (s.goto t (if (s.mem h).next = 0 then .spin v h else .swing v h (s.mem h).next))
  | .swing v h next =>
    some (
      if s.head = ⟨h, true⟩ then
        { s with head := ⟨next, false⟩ }.goto t (
          match v with
          | .dequeue => .countOut h
          | .tryDequeue => .readData .tryDequeue h)
      else s.abort .headCas)
  | _ => none

/-- `dequeue` and `try_dequeue` with a node that has left the queue. -/
def retireStep (t : Nat) : QueuePc → Option EvQueue
  | .countOut h => some ({ s with dCount := s.dCount + 1 }.goto t (.readData .dequeue h))
  | .readData v h =>
    some (s.goto t (
      match v with
      | .dequeue => .testInflight h (s.mem h).data
      | .tryDequeue => .free h (s.mem h).data))
  | .testInflight h data =>
    some (
      if (s.mem h).inflight ≠ 0 then s.abort .stillInflight else s.goto t (.testMagic h data))
  | .testMagic h data =>
    some (
      if (s.mem h).magic ≠ EVQ_MAGIC_LIVE then s.abort .magicInvalid
      else s.goto t (.storeMagic h data))
  | .storeMagic h data =>
    some ((s.store h { s.mem h with magic := EVQ_MAGIC_FREED }).goto t (.free h data))
  | .free h data =>
    -- `try_dequeue` frees without `memset`; what is in freed memory does not matter.
    some ({ s.store h Node.scrubbed with
      live := Function.update s.live h false
      returned := s.returned ++ [((s.mem h).id, data)] }.goto t (.idle (some (.data data))))
  | _ => none

/-- The next access of the thread `t`. -/
def threadStep (t : Nat) : Option EvQueue :=
  (s.enqueueStep t (s.pc t)).or
    ((s.claimStep t (s.pc t)).or ((s.advanceStep t (s.pc t)).or (s.retireStep t (s.pc t))))

end EvQueue

/-- The calls of a thread. -/
inductive QueueCall where
  | enqueue (data : Nat)
  | dequeue (v : Dequeuer)
  deriving DecidableEq, Repr

/-- One step of the thread `t`: it starts a call, gets memory from `malloc`,
or makes its next access. -/
inductive QueueLabel where
  | call (t : Nat) (c : QueueCall)
  | malloc (t : Nat) (a : Addr)
  | access (t : Nat)
  deriving DecidableEq, Repr

/-- The start of a call. -/
def QueueCall.start : QueueCall → QueuePc
  | .enqueue data => .alloc data
  | .dequeue v => .loadTail v

/-- The steps of the queue. After an abort there are none. -/
def EvQueue.step (l : QueueLabel) (s : EvQueue) : Option EvQueue :=
  if s.aborted.isSome then none
  else
    match l with
    | .call t c =>
      match s.pc t with
      | .idle _ => some (s.goto t c.start)
      | _ => none
    | .malloc t a => s.mallocStep t a
    | .access t => s.threadStep t

end Efio.Evds
