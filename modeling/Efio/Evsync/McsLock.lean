import Efio.Lib.Transition
import Mathlib.Algebra.GroupWithZero.Nat
import Mathlib.Logic.Function.Basic

/-!
# `Efio.Evsync.McsLock`: `ev_mcs_lock`, one atomic access a step

`McsLock T` is one lock with the memory of its nodes and the threads `T`
that use it. A step of a thread is one access to `tail` or to a field of a
node. `malloc` gives any address that is not allocated, so the address of a
freed node comes back.

The ticket that `mcs_get_access` returns is the address of the thread's
node, and `inside` is the place of a thread that has it. `exchanged` and
`granted` only record what has happened: the threads, with their nodes, in
the order of the exchanges on `tail`, and in the order in which
`mcs_get_access` returned.
-/

set_option autoImplicit false

namespace Efio.Evsync

open Efio.Lib

/-- The address of a node. The null pointer is `0`. -/
abbrev NodePtr := Nat

/-- `struct __s` -/
structure McsNode where
  locked : Nat
  next : NodePtr
  deriving DecidableEq, Repr

/-- Where a thread is, with its node `ptr`. -/
inductive McsPc where
  | idle
  -- `mcs_get_access`
  | alloc
  | exchange (ptr : NodePtr)
  | setLocked (ptr pred : NodePtr)
  | link (ptr pred : NodePtr)
  | spin (ptr : NodePtr)
  -- between `mcs_get_access` and `mcs_relinquish`
  | inside (ptr : NodePtr)
  -- `mcs_relinquish`
  | testNext (ptr : NodePtr)
  | casTail (ptr : NodePtr)
  | awaitNext (ptr : NodePtr)
  | loadNext (ptr : NodePtr)
  | unlock (ptr next : NodePtr)
  | free (ptr : NodePtr)
  deriving DecidableEq, Repr

/-- A lock with its nodes and the threads that use it. -/
structure McsLock (T : Type) where
  tail : NodePtr
  mem : NodePtr → McsNode
  live : NodePtr → Bool
  pc : T → McsPc
  exchanged : List (T × NodePtr)
  granted : List (T × NodePtr)

/-- A thread calls `mcs_get_access`, gets its node, calls `mcs_relinquish`
with its ticket, or makes its next access. -/
inductive McsLabel (T : Type) where
  | getAccess (t : T)
  | malloc (t : T) (a : NodePtr)
  | relinquish (t : T)
  | access (t : T)
  deriving DecidableEq, Repr

namespace McsLock

/-- `mcs_init`, with no thread inside. -/
def init (T : Type) : McsLock T :=
  { tail := 0
    mem := fun _ => ⟨0, 0⟩
    live := fun _ => false
    pc := fun _ => .idle
    exchanged := []
    granted := [] }

variable {T : Type} [DecidableEq T] (s : McsLock T)

def goto (t : T) (q : McsPc) : McsLock T := { s with pc := Function.update s.pc t q }

def store (a : NodePtr) (n : McsNode) : McsLock T := { s with mem := Function.update s.mem a n }

/-- `mcs_get_access` returns the ticket `ptr`. -/
def grant (t : T) (ptr : NodePtr) : McsLock T :=
  { s with granted := s.granted ++ [(t, ptr)] }.goto t (.inside ptr)

/-- `mcs_get_access` -/
def getAccessStep (t : T) : McsPc → Option (McsLock T)
  | .exchange ptr =>
    let s' := { s with tail := ptr, exchanged := s.exchanged ++ [(t, ptr)] }
    some (if s.tail ≠ 0 then s'.goto t (.setLocked ptr s.tail) else s'.grant t ptr)
  | .setLocked ptr pred => some ((s.store ptr { s.mem ptr with locked := 1 }).goto t (.link ptr pred))
  | .link ptr pred => some ((s.store pred { s.mem pred with next := ptr }).goto t (.spin ptr))
  | .spin ptr => some (if (s.mem ptr).locked ≠ 0 then s.goto t (.spin ptr) else s.grant t ptr)
  | _ => none

/-- `mcs_relinquish` -/
def relinquishStep (t : T) : McsPc → Option (McsLock T)
  | .testNext ptr => some (s.goto t (if (s.mem ptr).next = 0 then .casTail ptr else .awaitNext ptr))
  | .casTail ptr =>
    some (if s.tail = ptr then { s with tail := 0 }.goto t (.free ptr) else s.goto t (.awaitNext ptr))
  | .awaitNext ptr =>
    some (s.goto t (if (s.mem ptr).next = 0 then .awaitNext ptr else .loadNext ptr))
  | .loadNext ptr => some (s.goto t (.unlock ptr (s.mem ptr).next))
  | .unlock ptr next => some ((s.store next { s.mem next with locked := 0 }).goto t (.free ptr))
  | .free ptr => some ({ s with live := Function.update s.live ptr false }.goto t .idle)
  | _ => none

/-- The steps of the lock. -/
def step (l : McsLabel T) (s : McsLock T) : Option (McsLock T) :=
  match l with
  | .getAccess t => if s.pc t = .idle then some (s.goto t .alloc) else none
  | .malloc t a =>
    -- The node is filled in before any other thread can see it.
    if s.pc t = .alloc ∧ a ≠ 0 ∧ s.live a = false then
      some ({ s.store a { locked := 0, next := 0 } with
        live := Function.update s.live a true }.goto t (.exchange a))
    else none
  | .relinquish t =>
    match s.pc t with
    | .inside ptr => some (s.goto t (.testNext ptr))
    | _ => none
  | .access t => (s.getAccessStep t (s.pc t)).or (s.relinquishStep t (s.pc t))

end McsLock

end Efio.Evsync
