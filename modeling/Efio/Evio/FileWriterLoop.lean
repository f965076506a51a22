import Efio.Lib.Transition
import Mathlib.Logic.Function.Basic

/-!
# `Efio.Evio.FileWriterLoop`: how `file_writer` waits for its events

`FileWriterLoop T` is `sg_file_writer_queue` with its mutex and its
condition variable, `file_writer`, and the threads `T` that post events:
`write_buffer_sync`, `sync_file_writes` and `ef_file_write` all do it in
the same way. A step of a thread is one access to what the threads share.
What `file_writer` does with an event is `PipelineState.fileWriterStep`;
here it is one step.

`pthread_cond_wait` gives the mutex back and waits in one step, and takes
the mutex again after it has been woken. `pthread_cond_signal` wakes
`file_writer` if it waits, and `file_writer` may wake up on its own at any
time.

`posted` and `handled` only record what has happened.
-/

set_option autoImplicit false

namespace Efio.Evio

/-- `file_writer_cmd_type` -/
inductive FileWriterCmdType where
  | fwInvalidEvt
  | fwWriteReqEvt
  | fwWriteCmplEvt
  | fwShutdownEvt
  deriving DecidableEq, Repr

/-- `struct file_writer_task_s`. The file is given by its number. -/
structure FileWriterEvent where
  cmd : FileWriterCmdType
  file : Nat
  deriving DecidableEq, Repr

/-- The `switch` of `file_writer`: the event ends the loop. -/
def FileWriterEvent.shutdown (fwt : FileWriterEvent) : Bool :=
  match fwt.cmd with
  | .fwWriteCmplEvt | .fwWriteReqEvt => false
  | .fwShutdownEvt | .fwInvalidEvt => true

/-- Where `file_writer` is. -/
inductive LoopPc where
  | dequeue
  -- the inner loop
  | lock
  | lockedDequeue
  | unlockFound (fwt : FileWriterEvent)
  | condWait
  | waiting
  | reacquire
  | unlock
  | dequeueAgain
  -- behind the inner loop
  | handle (fwt : FileWriterEvent)
  | exited
  deriving DecidableEq, Repr

/-- Where a thread that posts an event is. -/
inductive PosterPc where
  | idle
  | enqueue (fwt : FileWriterEvent)
  | lock
  | signal
  | unlock
  deriving DecidableEq, Repr

/-- Who has `sg_file_writer_mutex`. -/
inductive MutexOwner (T : Type) where
  | fileWriter
  | poster (t : T)
  deriving DecidableEq, Repr

/-- The event queue and the threads that use it. -/
structure FileWriterLoop (T : Type) where
  queue : List FileWriterEvent
  mutex : Option (MutexOwner T)
  fileWriter : LoopPc
  posters : T → PosterPc
  posted : List FileWriterEvent
  handled : List FileWriterEvent

/-- A thread begins to post an event or goes on; `file_writer` goes on, or
wakes up on its own. -/
inductive LoopLabel (T : Type) where
  | post (t : T) (fwt : FileWriterEvent)
  | poster (t : T)
  | fileWriter
  | wake
  deriving DecidableEq, Repr

namespace FileWriterLoop

/-- The state after `ef_init`. -/
def start (T : Type) : FileWriterLoop T :=
  { queue := []
    mutex := none
    fileWriter := .dequeue
    posters := fun _ => .idle
    posted := []
    handled := [] }

variable {T : Type} (s : FileWriterLoop T)

/-- `dequeue` of `sg_file_writer_queue`. -/
def dequeueTo (found : FileWriterEvent → LoopPc) (empty : LoopPc) : FileWriterLoop T :=
  match s.queue with
  | [] => { s with fileWriter := empty }
  | fwt :: rest => { s with queue := rest, fileWriter := found fwt }

/-- `file_writer` -/
def fileWriterStep : LoopPc → Option (FileWriterLoop T)
  | .dequeue => some (s.dequeueTo .handle .lock)
  | .lock =>
    if s.mutex.isNone then some { s with mutex := some .fileWriter, fileWriter := .lockedDequeue }
    else none
  | .lockedDequeue => some (s.dequeueTo .unlockFound .condWait)
  | .unlockFound fwt => some { s with mutex := none, fileWriter := .handle fwt }
  | .condWait => some { s with mutex := none, fileWriter := .waiting }
  | .waiting => none
  | .reacquire =>
    if s.mutex.isNone then some { s with mutex := some .fileWriter, fileWriter := .unlock }
    else none
  | .unlock => some { s with mutex := none, fileWriter := .dequeueAgain }
  | .dequeueAgain => some (s.dequeueTo .handle .lock)
  | .handle fwt =>
    some { s with
      handled := s.handled ++ [fwt]
      fileWriter := if fwt.shutdown then .exited else .dequeue }
  | .exited => none

/-- `file_writer` is woken, if it waits. -/
def woken : LoopPc := if s.fileWriter = .waiting then .reacquire else s.fileWriter

variable [DecidableEq T]

def posterGoto (t : T) (q : PosterPc) : FileWriterLoop T :=
  { s with posters := Function.update s.posters t q }

/-- The enqueue of an event and the signal. -/
def posterStep (t : T) : PosterPc → Option (FileWriterLoop T)
  | .idle => none
  | .enqueue fwt =>
    some ({ s with queue := s.queue ++ [fwt], posted := s.posted ++ [fwt] }.posterGoto t .lock)
  | .lock =>
    if s.mutex.isNone then some ({ s with mutex := some (.poster t) }.posterGoto t .signal) else none
  | .signal => some ({ s with fileWriter := s.woken }.posterGoto t .unlock)
  | .unlock => some ({ s with mutex := none }.posterGoto t .idle)

/-- The steps of the loop and of the threads that post to it. -/
def step (l : LoopLabel T) (s : FileWriterLoop T) : Option (FileWriterLoop T) :=
  match l with
  | .post t fwt => if s.posters t = .idle then some (s.posterGoto t (.enqueue fwt)) else none
  | .poster t => s.posterStep t (s.posters t)
  | .fileWriter => s.fileWriterStep s.fileWriter
  | .wake => if s.fileWriter = .waiting then some { s with fileWriter := .reacquire } else none

end FileWriterLoop

end Efio.Evio
