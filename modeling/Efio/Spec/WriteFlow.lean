import Efio.Evio.Threads

/-!
# `Efio.Spec.WriteFlow`: the way of a write item, without the threads

`WriteFlow` keeps of a file what an item of `_w_queue` passes through: the
input of the live write action, the events, `file_writer`, the tasks of
`ef_file_write`, and the push that is under way. `FlowStep` lists all the
ways in which these change. Which thread does what, the locks, and the
actions of other kinds are gone.

`tokens` counts the batches between `file_writer` and its completion
event, and `unexecuted` is what is left of them.
-/

set_option autoImplicit false

namespace Efio.Spec

open Efio.Evio

/-- The path of the write items of one file. `inp` is the live write action
with its input. -/
structure WriteFlow where
  inp : Option (Nat × WriteOper)
  queue : List FileWriterTask
  writer : FileWriterPc
  jobs : List WriteJob
  push : Option PushPc
  pushed : List WriteTask
  executed : List WriteTask

/-! ### Which action an event, a task or a push belongs to -/

def eventAction : FileWriterTask → Nat
  | .fwWriteReqEvt id | .fwWriteCmplEvt id => id

def isCmpl : FileWriterTask → Bool
  | .fwWriteReqEvt _ => false
  | .fwWriteCmplEvt _ => true

def writerAction : FileWriterPc → Option Nat
  | .idle => none
  | .reqTest id | .cmplCollect id | .drain id _ _ | .fire id _ | .addCmpl id _ => some id

def jobAction : WriteJob → Option Nat
  | .queued => none
  | .items id _ _ | .finish id _ | .post id => some id

def pushAction : PushPc → Option Nat
  | .count _ | .enqueue _ => none
  | .init id | .post id => some id

/-! ### Batches -/

/-- `file_writer` holds a batch. -/
def writerToken : FileWriterPc → Nat
  | .cmplCollect _ | .drain _ _ true | .fire _ _ => 1
  | _ => 0

/-- The completions `file_writer` still has to add. -/
def pendingCmpl : FileWriterPc → Nat
  | .drain _ (some compl) _ | .fire _ (some compl) | .addCmpl _ compl => compl
  | _ => 0

/-- The items of the batch a task has still to execute. -/
def jobRest (batch : List WriteTask) : WriteJob → List WriteTask
  | .queued => batch
  | .items _ rest _ => rest
  | .finish _ _ | .post _ => []

/-- The push has raised the count, but not yet queued its item. -/
def pushCounted : Option PushPc → Nat
  | some (.enqueue _) => 1
  | _ => 0

/-- The push has queued its item, but not yet posted its event. -/
def pushAnnouncing : Option PushPc → Bool
  | some (.init _) | some (.post _) => true
  | _ => false

/-- `file_writer` is about to look at the queue. -/
def writerLooking : FileWriterPc → Bool
  | .reqTest _ | .drain _ _ _ => true
  | _ => false

namespace WriteFlow

/-- The batches between `file_writer` and its completion event. -/
def tokens (c : WriteFlow) : Nat :=
  c.jobs.length + c.queue.countP isCmpl + writerToken c.writer

/-- The items taken from the queue and not yet executed. -/
def unexecuted (c : WriteFlow) (batch : List WriteTask) : List WriteTask :=
  match c.writer with
  | .drain _ _ true | .fire _ _ => batch
  | _ => c.jobs.flatMap (jobRest batch)

/-- Nothing is on its way. -/
def Quiet (c : WriteFlow) : Prop :=
  c.queue = [] ∧ c.writer = .idle ∧ c.jobs = [] ∧ c.push = none

end WriteFlow

/-! ### Steps -/

open WriteFlow in
/-- All the ways in which the flow of one file changes. -/
inductive FlowStep (c : WriteFlow) : WriteFlow → Prop where
  | same : FlowStep c c
  | accumulate {id inp} (accum : List UInt8) (hinp : c.inp = some (id, inp)) :
      FlowStep c { c with inp := some (id, { inp with wAccum := accum }) }
  | start {id inp} (accum : List UInt8) (w : WriteTask) (hinp : c.inp = some (id, inp))
      (hpush : c.push = none) :
      FlowStep c { c with
        inp := some (id, { inp with wAccum := accum })
        push := some (.count w) }
  | count {id inp w} (hinp : c.inp = some (id, inp)) (hpush : c.push = some (.count w)) :
      FlowStep c { c with
        inp := some (id, { inp with writeTotreqCount := inp.writeTotreqCount + 1 })
        push := some (.enqueue w) }
  | enqueue {id inp w} (hinp : c.inp = some (id, inp)) (hpush : c.push = some (.enqueue w)) :
      FlowStep c { c with
        inp := some (id, { inp with wQueue := inp.wQueue ++ [w] })
        push := some (.init id)
        pushed := c.pushed ++ [w] }
  | init {id} (hpush : c.push = some (.init id)) : FlowStep c { c with push := some (.post id) }
  | post {id} (hpush : c.push = some (.post id)) :
      FlowStep c { c with push := none, queue := c.queue ++ [.fwWriteReqEvt id] }
  | takeReq {id rest} (hidle : c.writer = .idle) (hqueue : c.queue = .fwWriteReqEvt id :: rest) :
      FlowStep c { c with queue := rest, writer := .reqTest id }
  | takeCmpl {id rest} (hidle : c.writer = .idle) (hqueue : c.queue = .fwWriteCmplEvt id :: rest) :
      FlowStep c { c with queue := rest, writer := .cmplCollect id }
  | skip {id i inp} (hinp : c.inp = some (i, inp)) (hpc : c.writer = .reqTest id)
      (hbusy : inp.writeReqCount ≠ inp.writeCmplCount) : FlowStep c { c with writer := .idle }
  | look {id i inp} (hinp : c.inp = some (i, inp)) (hpc : c.writer = .reqTest id)
      (hfree : inp.writeReqCount = inp.writeCmplCount) :
      FlowStep c { c with writer := .drain id none false }
  | collect {id i inp} (hinp : c.inp = some (i, inp)) (hpc : c.writer = .cmplCollect id) :
      FlowStep c { c with
        inp := some (i, { inp with bWList := [] })
        writer := .drain id (some inp.bWList.length) false }
  | drain {id i inp compl got w rest} (hinp : c.inp = some (i, inp))
      (hpc : c.writer = .drain id compl got) (hqueue : inp.wQueue = w :: rest) :
      FlowStep c { c with
        inp := some (i, { inp with
          wQueue := rest
          bWList := if got then inp.bWList ++ [w] else [w]
          writeReqCount := inp.writeReqCount + 1 })
        writer := .drain id compl true }
  | drainEnd {id i inp compl} (hinp : c.inp = some (i, inp)) (hpc : c.writer = .drain id compl true)
      (hqueue : inp.wQueue = []) : FlowStep c { c with writer := .fire id compl }
  | drainNone {id i inp compl} (hinp : c.inp = some (i, inp))
      (hpc : c.writer = .drain id compl false) (hqueue : inp.wQueue = []) :
      FlowStep c { c with writer := afterDrain id compl }
  | fire {id compl} (hpc : c.writer = .fire id compl) :
      FlowStep c { c with jobs := c.jobs ++ [.queued], writer := afterDrain id compl }
  | addCmpl {id i inp compl} (hinp : c.inp = some (i, inp)) (hpc : c.writer = .addCmpl id compl) :
      FlowStep c { c with
        inp := some (i, { inp with writeCmplCount := inp.writeCmplCount + compl })
        writer := .idle }
  | jobStart {i id inp} (hinp : c.inp = some (id, inp)) (hjob : c.jobs[i]? = some .queued) :
      FlowStep c { c with jobs := c.jobs.set i (.items id inp.bWList 0) }
  | jobExec {i id w rest bytes bytes'} (hjob : c.jobs[i]? = some (.items id (w :: rest) bytes)) :
      FlowStep c { c with
        jobs := c.jobs.set i (.items id rest bytes')
        executed := c.executed ++ [w] }
  | jobEnd {i id bytes} (hjob : c.jobs[i]? = some (.items id [] bytes)) :
      FlowStep c { c with jobs := c.jobs.set i (.finish id bytes) }
  | jobFinish {i id bytes} (hjob : c.jobs[i]? = some (.finish id bytes)) :
      FlowStep c { c with jobs := c.jobs.set i (.post id) }
  | jobPost {i id} (hjob : c.jobs[i]? = some (.post id)) :
      FlowStep c { c with jobs := c.jobs.eraseIdx i, queue := c.queue ++ [.fwWriteCmplEvt id] }
  | alloc (id : Nat) (hnone : c.inp = none) :
      FlowStep c { c with inp := some (id, WriteOper.init) }
  | free (hquiet : c.Quiet) : FlowStep c { c with inp := none }

end Efio.Spec
