import Efio.Evds.PaQueue
import Efio.Lib.DelayedLinks
import Efio.Spec.StackHistory

/-!
# `Efio.Spec.PaQueueFlow`: the parts the threads of an `ev_paqueue` play

Of a thread, only a `PaRole` matters to the others: which node it has, and
whether that node is private, on the list of a lane, marked, or taken off.
Two threads may have marked nodes of one lane, but only one of them stands
on its list (`active`): the others have cleared the tail (`cleared`), and
an enqueue may overwrite the mark that they have left at the head.

`LaneFifo` says what the queue is for.
-/

set_option autoImplicit false

namespace Efio.Spec

open Efio.Lib
open Efio.Evds

/-- The part a thread plays. -/
inductive PaRole where
  | none
  /-- It has filled in `p` and not yet exchanged it into a tail. -/
  | fresh (p : Addr)
  /-- It is about to store the link from `old` to `p`. -/
  | linking (i : Nat) (p old : Addr)
  /-- It found the lane empty and is about to store the head. -/
  | heading (i : Nat) (p : Addr)
  /-- It has marked the head `h`. -/
  | active (i : Nat) (h : Addr)
  /-- It has marked the head `h` and cleared the tail. -/
  | cleared (i : Nat) (h : Addr)
  /-- It is done with the head. -/
  | retiring (h : Addr)
  deriving DecidableEq, Repr

def paRole : PaQueuePc → PaRole
  | .enqCount p | .exchange p _ => .fresh p
  | .link p old i => .linking i p old
  | .setHead p i => .heading i p
  | .loadNext i h | .testTail i h _ | .clearTail i h | .spin i h => .active i h
  | .swing i h next => if next = 0 then .cleared i h else .active i h
  | .readData h | .free h _ => .retiring h
  | _ => .none

/-- The node that no other thread has. -/
def PaRole.token : PaRole → Option Addr
  | .none => Option.none
  | .fresh p | .linking _ p _ | .heading _ p => some p
  | .active _ h | .cleared _ h | .retiring h => some h

/-- The node of a consumer. -/
def PaRole.held : PaRole → Option Addr
  | .active _ h | .cleared _ h | .retiring h => some h
  | _ => Option.none

/-- What the thread has read is still there. -/
def PaReads (s : EvPaQueue) : PaQueuePc → Prop
  | .enqCount p | .exchange p _ => (s.mem p).next = 0
  | .markHead _ h => h ≠ 0
  | .testTail _ h next | .swing _ h next => next = 0 ∨ (s.mem h).next = next
  | .free h data => (s.mem h).data = data
  | _ => True

/-! ### What the queue is for -/

/-- The elements claimed on the lane `i`, in the order of the marks. -/
def claimedOn (s : EvPaQueue) (i : Nat) : List (Addr × Nat) :=
  s.claims.filterMap fun c => if c.2.1 = i then some c.2.2 else none

/-- The element that the thread `t` has claimed and not yet returned. -/
def holding (s : EvPaQueue) (t : Nat) : List (Addr × Nat) :=
  match (paRole (s.pc t)).held with
  | some h => [s.elem h]
  | none => []

end Efio.Spec
