import Efio.Evds.ChunkedMemoryStream
import Efio.Evds.Queue

/-!
# `Efio.Evds.MemoryBufferList`: `memory_buffer_list`, one atomic access a step

`MemoryBufferList` is one list with the memory of its nodes and the two
threads that use it: the producer in `add_node`, and the consumer in
`get_head`, `get_next` or `pop_head`. A step is one access to `_head`, to
`_tail` or to the `_next` of a node. `new` gives any address that is not
allocated, so the address of a deleted node may come back.

The consumer follows `get_next` from nodes that it has reached and not
popped, looks at the data of these and of popped nodes, and deletes popped
nodes. Memory is raw: a store through a pointer to a deleted node changes
whatever is there now.

`reached` and `popped` are the pointers that the consumer has: those it
got from `get_head` and `get_next`, and those of popped nodes that it has
not deleted. `added` and `removed` record the nodes, with their buffers, in
the order of the exchanges on `_tail` and of the returns of `pop_head`.
-/

set_option autoImplicit false

namespace Efio.Evds

open Efio.Lib

/-- `memory_buffer_list::node` -/
structure ListNode extends BufferNode where
  next : Addr
  deriving DecidableEq, Repr

/-- `~node` -/
def ListNode.deleted : ListNode :=
  { buffer := none
    size := 0
    position := none
    sizeAtPosition := 0
    next := 0 }

/-- Where the producer is: between two calls, or in `add_node` with its
node `p` and the old tail `old`. `_head.exchange(_tail)` first loads
`_tail`. -/
inductive ProducerPc where
  | idle
  | new (buffer : Option Ptr) (size : Nat)
  | exchangeTail (p : Addr)
  | setNext (p old : Addr)
  | loadTail (p : Addr)
  | exchangeHead (p tail : Addr)
  deriving DecidableEq, Repr

/-- Where the consumer is: between two calls with the last result, in
`get_head`, in `get_next`, or in `pop_head` with the node `hp`. -/
inductive ConsumerPc where
  | idle (last : Addr)
  | headLoadTail
  | headLoad
  | headReload
  | headReloadTail (head : Addr)
  | nextLoad (a : Addr)
  | popLoadTail
  | popLoadHead
  | popNext (hp : Addr)
  | clearTail (hp : Addr)
  | spin (hp : Addr)
  | swing (hp next : Addr)
  deriving DecidableEq, Repr

/-- A list with the memory and the two threads that use it. -/
structure MemoryBufferList where
  head : Addr
  tail : Addr
  mem : Addr → ListNode
  live : Addr → Bool
  producer : ProducerPc
  consumer : ConsumerPc
  reached : List Addr
  popped : List Addr
  added : List (Addr × BufferNode)
  removed : List (Addr × BufferNode)

namespace MemoryBufferList

/-- The constructor, with no thread inside. -/
def create : MemoryBufferList :=
  { head := 0
    tail := 0
    mem := fun _ => .deleted
    live := fun _ => false
    producer := .idle
    consumer := .idle 0
    reached := []
    popped := []
    added := []
    removed := [] }

variable (s : MemoryBufferList)

/-- The node `a` with its buffer. -/
def entry (a : Addr) : Addr × BufferNode := (a, (s.mem a).toBufferNode)

def next (a : Addr) : Addr := (s.mem a).next

def store (a : Addr) (n : ListNode) : MemoryBufferList := { s with mem := Function.update s.mem a n }

/-- The producer goes on with `q`. -/
def produce (q : ProducerPc) : MemoryBufferList := { s with producer := q }

/-- The consumer goes on with `q`. -/
def consume (q : ConsumerPc) : MemoryBufferList := { s with consumer := q }

/-- `get_head` or `get_next` returns `a`. -/
def reach (a : Addr) : MemoryBufferList :=
  { s with consumer := .idle a, reached := if a = 0 then s.reached else a :: s.reached }

/-- `add_node` gets its node from `new` and fills it in. -/
def newStep (a : Addr) : Option MemoryBufferList :=
  match s.producer with
  | .new buffer size =>
    if a = 0 ∨ s.live a = true then none
    else
      some ({ s.store a { toBufferNode := .setBuffer buffer size, next := 0 } with
        live := Function.update s.live a true }.produce (.exchangeTail a))
  | _ => none

/-- `add_node` after `new`. -/
def addNodeStep : ProducerPc → Option MemoryBufferList
  | .exchangeTail p =>
    some ({ s with tail := p, added := s.added ++ [s.entry p] }.produce
      (if s.tail ≠ 0 then .setNext p s.tail else .loadTail p))
  | .setNext p old => some ((s.store old { s.mem old with next := p }).produce .idle)
  | .loadTail p => some (s.produce (.exchangeHead p s.tail))
  | .exchangeHead _ tail => some ({ s with head := tail }.produce .idle)
  | _ => none

/-- `get_head` and `get_next` -/
def getStep : ConsumerPc → Option MemoryBufferList
  | .headLoadTail => some (s.consume (if s.tail = 0 then .idle 0 else .headLoad))
  | .headLoad => some (if s.head = 0 then s.consume .headReload else s.reach s.head)
  | .headReload => some (s.consume (.headReloadTail s.head))
  | .headReloadTail head =>
    some (
      if s.tail = 0 then s.consume (.idle 0)
      else if head = 0 then s.consume .headReload
      else s.reach head)
  | .nextLoad a => some (s.reach (s.next a))
  | _ => none

/-- `pop_head` -/
def popHeadStep : ConsumerPc → Option MemoryBufferList
  | .popLoadTail => some (s.consume (if s.tail = 0 then .idle 0 else .popLoadHead))
  | .popLoadHead => some (s.consume (if s.head = 0 then .popLoadHead else .popNext s.head))
  | .popNext hp => some (s.consume (if s.next hp = 0 then .clearTail hp else .swing hp (s.next hp)))
  | .clearTail hp =>
    some (
      if s.tail = hp then { s with tail := 0 }.consume (.swing hp 0)
      else s.consume (.spin hp))
  | .spin hp => some (s.consume (if s.next hp = 0 then .spin hp else .swing hp (s.next hp)))
  | .swing hp next =>
    -- That the compare-exchange may fail is ignored.
    some ({ s with
      head := if s.head = hp then next else s.head
      reached := s.reached.filter (· ≠ hp)
      popped := hp :: s.popped
      removed := s.removed ++ [s.entry hp] }.consume (.idle hp))
  | _ => none

/-- The consumer deletes a popped node. -/
def delete (a : Addr) : MemoryBufferList :=
  { s.store a .deleted with
    live := Function.update s.live a false
    popped := s.popped.erase a }

end MemoryBufferList

/-- The calls of the consumer. -/
inductive ConsumerCall where
  | getHead
  | getNext (a : Addr)
  | popHead
  | inspect (a : Addr)
  | delete (a : Addr)
  deriving DecidableEq, Repr

/-- One step: the producer starts `add_node`, gets a node from `new` or
makes its next access; the consumer starts a call or makes its next
access. -/
inductive ListLabel where
  | addNode (buffer : Option Ptr) (size : Nat)
  | new (a : Addr)
  | produce
  | call (c : ConsumerCall)
  | consume
  deriving DecidableEq, Repr

namespace MemoryBufferList

variable (s : MemoryBufferList)

/-- The consumer's call. To look at a node's data or to delete it takes one
step. -/
def callStep : ConsumerCall → Option MemoryBufferList
  | .getHead => some (s.consume .headLoadTail)
  | .getNext a => if a ∈ s.reached then some (s.consume (.nextLoad a)) else none
  | .popHead => some (s.consume .popLoadTail)
  | .inspect a => if a ∈ s.reached ∨ a ∈ s.popped then some s else none
  | .delete a => if a ∈ s.popped then some (s.delete a) else none

/-- The steps of the list. -/
def step (l : ListLabel) (s : MemoryBufferList) : Option MemoryBufferList :=
  match l with
  | .addNode buffer size => if s.producer = .idle then some (s.produce (.new buffer size)) else none
  | .new a => s.newStep a
  | .produce => s.addNodeStep s.producer
  | .call c =>
    match s.consumer with
    | .idle _ => s.callStep c
    | _ => none
  | .consume => (s.getStep s.consumer).or (s.popHeadStep s.consumer)

end MemoryBufferList

end Efio.Evds
