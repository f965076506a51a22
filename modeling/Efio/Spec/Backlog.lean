import Efio.Spec.Payload
import Efio.Spec.WriteFlow

/-!
# `Efio.Spec.Backlog`: the accepted writes a file has not yet seen

`Backlog` is a file with the writes that are on their way to it: the
queued tasks, a task that is not yet counted (`waiting`), and the
accumulator page. `totreq` is `_write_totreq_count`.

`BacklogStep` lists what the background does to it. Each step leaves the
bytes outstanding as they are, or moves the first of them into the file.

`EndsClean` and `Settled` are about the end of the backlog: a page that is
still dirty, or becomes so, has an `fsync` behind it.
-/

set_option autoImplicit false

namespace Efio.Spec

open Efio.Evio

structure Backlog where
  file : EfFile
  queue : List WriteTask
  waiting : Option WriteTask
  accum : List UInt8
  totreq : Nat

/-- The task a push has counted and not yet queued. -/
def countedTask : Option PushPc → List WriteTask
  | some (.enqueue w) => [w]
  | _ => []

/-- The task a push has not yet counted. -/
def waitingTask : Option PushPc → Option WriteTask
  | some (.count w) => some w
  | _ => none

/-- The backlog of a write flow. -/
def WriteFlow.backlog (c : WriteFlow) (file : EfFile) : Backlog :=
  { file := file
    queue := c.pushed.drop c.executed.length ++ countedTask c.push
    waiting := waitingTask c.push
    accum := (c.inp.map fun a => a.2.wAccum).getD []
    totreq := (c.inp.map fun a => a.2.writeTotreqCount).getD 0 }

namespace Backlog

/-- The bytes on their way, in order. -/
def outstanding (b : Backlog) : List UInt8 := payload (b.queue ++ b.waiting.toList) ++ b.accum

/-- When `queue` has been executed the page is clean. -/
def CleanAfter (file : EfFile) (queue : List WriteTask) : Prop :=
  match queue.getLast? with
  | some w => w.cmd = .fileFsyncEvt
  | none => file.buf.isDirty = false

/-- Nothing but `fsync` is waiting. -/
def OnlySyncs (ws : List WriteTask) : Prop := ∀ w ∈ ws, w.cmd = .fileFsyncEvt

/-- The whole queue leaves a clean page, and no byte comes after it. -/
structure EndsClean (b : Backlog) : Prop where
  accum : b.accum = []
  waiting : OnlySyncs b.waiting.toList
  queue : CleanAfter b.file b.queue

/-- The first `totreq` tasks leave a clean page, and no byte comes after
them. -/
structure EndsCleanAt (b : Backlog) (totreq : Nat) : Prop where
  accum : b.accum = []
  waiting : OnlySyncs b.waiting.toList
  queue : ∃ first rest, b.queue = first ++ rest ∧ CleanAfter b.file first ∧ OnlySyncs rest ∧
    (first = [] ∨ b.totreq ≤ totreq + rest.length)

/-- The page is clean and no byte is on its way. -/
structure Settled (b : Backlog) : Prop where
  accum : b.accum = []
  waiting : OnlySyncs b.waiting.toList
  queue : OnlySyncs b.queue
  clean : b.file.buf.isDirty = false

end Backlog

/-- What the background does to the backlog. -/
inductive BacklogStep (E : Env) (b : Backlog) : Backlog → Prop where
  | same : BacklogStep E b b
  | exec {w : WriteTask} {rest : List WriteTask} {file : EfFile} {n : Nat}
      (hqueue : b.queue = w :: rest) (hexec : execTask E b.file w = .ok (file, n)) :
      BacklogStep E b { b with queue := rest, file := file }
  | flush (hnone : b.waiting = none) (hsome : b.accum ≠ []) :
      BacklogStep E b { b with waiting := some ⟨.fileWriteEvt, b.accum⟩, accum := [] }
  | fsync (hnone : b.waiting = none) (w : WriteTask) (hcmd : w.cmd = .fileFsyncEvt) :
      BacklogStep E b { b with waiting := some w }
  | count {w : WriteTask} (hsome : b.waiting = some w) :
      BacklogStep E b
        { b with queue := b.queue ++ [w], waiting := none, totreq := b.totreq + 1 }

end Efio.Spec
