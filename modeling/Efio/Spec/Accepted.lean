import Efio.Spec.Backlog

/-!
# `Efio.Spec.Accepted`: what has become of the accepted bytes

`acceptedBytes` is what `ef_write` has accepted so far. A byte that has
left the call is `carried`: it is in a task that was pushed or is about to
be, or in the accumulator page. `restOf` is what the call still holds.
-/

set_option autoImplicit false

namespace Efio.Spec

open Efio.Evio

/-- The bytes of the accepted writes, in order. -/
def acceptedBytes (history : List Observed) : List UInt8 :=
  history.flatMap fun
    | .accepted buf => buf
    | .readReturned _ _ _ _ => []

@[simp] theorem acceptedBytes_accepted (history : List Observed) (buf : List UInt8) :
    acceptedBytes (history ++ [.accepted buf]) = acceptedBytes history ++ buf := by
  simp [acceptedBytes]

@[simp] theorem acceptedBytes_returned (history : List Observed) (nbyte : Nat) (ret : Int)
    (err : Option Errno) (bytes : List UInt8) :
    acceptedBytes (history ++ [.readReturned nbyte ret err bytes]) = acceptedBytes history := by
  simp [acceptedBytes]

/-- The bytes that have come into the write flow, in order: in the tasks
that were pushed, in the one that is being pushed, in the accumulator. -/
def WriteFlow.carried (c : WriteFlow) : List UInt8 :=
  payload (c.pushed ++ countedTask c.push ++ (waitingTask c.push).toList) ++
    (c.inp.map fun a => a.2.wAccum).getD []

/-- The bytes of the `ef_write` under way that are not yet in the
accumulator. -/
def restOf : ForegroundPc → List UInt8
  | .writeLoop buf done | .pushing _ (.write buf done) => buf.drop done
  | .allocating _ _ (.write buf) => buf
  | _ => []

end Efio.Spec
