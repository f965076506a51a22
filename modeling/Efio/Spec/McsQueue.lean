import Efio.Evsync.McsLock

/-!
# `Efio.Spec.McsQueue`: the parts the threads of an `ev_mcs_lock` play

Of a thread, only an `McsRole` matters to the others: which node it has and
whether that node is private, waits in the queue, is at its front, or has
left it.

`FairLock` says what the lock is for.
-/

set_option autoImplicit false

namespace Efio.Spec

open Efio.Evsync

/-- The part a thread plays. -/
inductive McsRole where
  | none
  /-- It has filled in `ptr` and not yet exchanged it into `tail`. -/
  | fresh (ptr : NodePtr)
  /-- It has yet to store the link from `pred` to `ptr`. -/
  | linking (ptr pred : NodePtr)
  /-- It waits until `ptr` is unlocked. -/
  | waiting (ptr : NodePtr)
  /-- It has the lock. -/
  | holding (ptr : NodePtr)
  /-- It has handed the lock over and not yet freed `ptr`. -/
  | retiring (ptr : NodePtr)
  deriving DecidableEq, Repr

def mcsRole : McsPc → McsRole
  | .idle | .alloc => .none
  | .exchange ptr => .fresh ptr
  | .setLocked ptr pred | .link ptr pred => .linking ptr pred
  | .spin ptr => .waiting ptr
  | .inside ptr | .testNext ptr | .casTail ptr | .awaitNext ptr | .loadNext ptr => .holding ptr
  | .unlock ptr _ => .holding ptr
  | .free ptr => .retiring ptr

/-- The node of a thread. -/
def McsRole.node : McsRole → Option NodePtr
  | .none => Option.none
  | .fresh ptr | .linking ptr _ | .waiting ptr | .holding ptr | .retiring ptr => some ptr

/-- The thread is inside: `mcs_get_access` has returned, and
`mcs_relinquish` has not yet handed the lock over. -/
def holds (p : McsPc) : Prop := ∃ ptr, mcsRole p = .holding ptr

/-- The nodes a thread has pointers to and may still read, write or free. -/
def pointers : McsPc → List NodePtr
  | .idle | .alloc => []
  | .exchange ptr | .spin ptr | .inside ptr | .testNext ptr | .casTail ptr => [ptr]
  | .awaitNext ptr | .loadNext ptr | .free ptr => [ptr]
  | .setLocked ptr pred | .link ptr pred => [ptr, pred]
  | .unlock ptr next => [ptr, next]

/-- Mutual exclusion; the lock is granted in the order of the exchanges; and
a node to which a thread has a pointer is allocated, so it is not freed
before the thread is done with it. -/
structure FairLock {T : Type} (s : McsLock T) : Prop where
  alone : ∀ t u, holds (s.pc t) → holds (s.pc u) → t = u
  order : s.granted <+: s.exchanged
  alive : ∀ t, ∀ a ∈ pointers (s.pc t), s.live a = true

end Efio.Spec
