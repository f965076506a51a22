import Efio.Spec.WriteFlow
import Mathlib.Algebra.GroupWithZero.Nat

/-!
# `Efio.Spec.FlowWork`: the work that is left in a write flow

`WriteFlow.work` bounds how many steps `file_writer` and the tasks of
`ef_file_write` still make when nobody pushes anything. An item of
`_w_queue` has to pay for everything that happens to it up to its
completion event, so it weighs most.
-/

set_option autoImplicit false

namespace Efio.Spec

open Efio.Evio

/-- The steps of `file_writer` for the event it handles, when its batch has
`k` items. After its loop it may fire a task, whose steps are counted
here. -/
def writerWork (k : Nat) : FileWriterPc → Nat
  | .idle => 0
  | .addCmpl _ _ => 1
  | .drain _ _ false => 2
  | .reqTest _ | .cmplCollect _ => 3
  | .fire _ _ => k + 10
  | .drain _ _ true => k + 11

/-- The steps of a task of `ef_file_write`, when its batch has `k` items,
with those for its completion event. -/
def jobWork (k : Nat) : WriteJob → Nat
  | .post _ => 5
  | .finish _ _ => 6
  | .items _ rest _ => rest.length + 7
  | .queued => k + 8

namespace WriteFlow

/-- `_b_w_list` of the live write action. -/
def batch (c : WriteFlow) : List WriteTask := (c.inp.map fun a => a.2.bWList).getD []

/-- `_w_queue` of the live write action. -/
def waitingItems (c : WriteFlow) : List WriteTask := (c.inp.map fun a => a.2.wQueue).getD []

/-- A bound on the steps that are left. -/
def work (c : WriteFlow) : Nat :=
  4 * c.queue.length + 11 * c.waitingItems.length + writerWork c.batch.length c.writer +
    (c.jobs.map (jobWork c.batch.length)).sum

/-- The work, with the input of the action at hand. -/
theorem work_of_inp {c : WriteFlow} {id : Nat} {inp : WriteOper} (hinp : c.inp = some (id, inp)) :
    c.work = 4 * c.queue.length + 11 * inp.wQueue.length + writerWork inp.bWList.length c.writer +
      (c.jobs.map (jobWork inp.bWList.length)).sum := by
  simp only [work, batch, waitingItems, hinp, Option.map_some, Option.getD_some]

end WriteFlow

theorem writerWork_afterDrain (k id : Nat) (compl : Option Nat) :
    writerWork k (afterDrain id compl) ≤ 1 := by
  cases compl <;> simp [afterDrain, writerWork]

end Efio.Spec
