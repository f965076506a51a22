import Efio.Evds.MemoryBufferList
import Efio.Lib.DelayedLinks

/-!
# `Efio.Spec.MemoryBufferFlow`: a list between one producer and one consumer

What `memory_buffer_list` is for: nodes come out in the order in which they
were added, each once, and the consumer has pointers only to nodes that it
has not deleted.
-/

set_option autoImplicit false

namespace Efio.Spec

open Efio.Evds

/-- The nodes in the list: they have been exchanged into `_tail`, and
`pop_head` has not returned them. -/
def listed (s : MemoryBufferList) : List Addr := (s.added.drop s.removed.length).map Prod.fst

/-- The node that a step dereferences. -/
def dereferenced (s : MemoryBufferList) : ListLabel → Option Addr
  | .produce =>
    match s.producer with
    | .setNext _ old => some old
    | _ => none
  | .consume =>
    match s.consumer with
    | .nextLoad a | .popNext a | .spin a => some a
    | _ => none
  | .call (.inspect a) | .call (.delete a) => some a
  | _ => none

/-- The consumer is in `pop_head`. -/
def InPop : ConsumerPc → Prop
  | .popLoadTail | .popLoadHead | .popNext _ | .clearTail _ | .spin _ | .swing _ _ => True
  | _ => False

/-- The producer is in `add_node`, between the exchange on `_tail` and its
last store. -/
def Adding : ProducerPc → Prop
  | .setNext _ _ | .loadTail _ | .exchangeHead _ _ => True
  | _ => False

/-- A list that is used by one producer and one consumer. -/
structure SpscList (s : MemoryBufferList) : Prop where
  /-- The nodes come out as they were added. -/
  order : s.removed <+: s.added
  /-- A pointer is not returned twice, and a popped node is not listed. -/
  once : (s.popped ++ listed s).Nodup
  reached : ∀ a ∈ s.reached, a ∈ listed s
  live : ∀ a ∈ s.popped ++ listed s, s.live a = true
  /-- `pop_head` waits only for an `add_node` to finish. -/
  waits : ¬Adding s.producer →
    (s.consumer = .popLoadHead → s.head ≠ 0) ∧ ∀ hp, s.consumer = .spin hp → s.next hp ≠ 0

end Efio.Spec
