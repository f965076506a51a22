import Efio.Evio.PageEngine

/-!
# `Efio.Evio.Threads`: where the threads of the module stand

One open file is worked on by the foreground thread, `slow_sync`,
`file_writer` and the workers of the disk pool. `PipelineState` is what
they share on that file, and for each of them where it stands: a
constructor of `ForegroundPc`, `SyncPc` and so on says what the thread
does next. `push`, `free`, `alloc` and `sync` are pieces of code that
several functions run, so they have their own places, and the places of
the caller say how it goes on.

Accesses that no other thread can tell apart are one step: what a thread
reads and writes while it alone can change it, and the tests of the
foreground thread on an action, which it alone replaces. A task of
`ef_file_write` is one step as well; what a concurrent `ef_read` may see of
it is a parameter of that step (`View`).

No notification callback is registered. Events for other files change
nothing here and are left out, as is the shutdown.
-/

set_option autoImplicit false

namespace Efio.Evio

/-! ### Queues -/

/-- `struct file_writer_task_s`. `id` is the action whose item or batch the
event announces; the code does not store it. -/
inductive FileWriterTask where
  | fwWriteReqEvt (id : Nat)
  | fwWriteCmplEvt (id : Nat)
  deriving DecidableEq, Repr

/-- `ef_file_write` in the disk pool: queued, with the items still to
execute, about to store its result, about to post its event. `bytes` is
`bytes_transfered`. -/
inductive WriteJob where
  | queued
  | items (id : Nat) (rest : List WriteTask) (bytes : Nat)
  | finish (id : Nat) (bytes : Nat)
  | post (id : Nat)
  deriving DecidableEq, Repr

/-- `ef_file_read` in the disk pool for the page `page`. -/
inductive ReadJob where
  | queued (page : Nat)
  | load (page : Nat)
  | publish (ret : Int) (err : Option Errno)
  deriving DecidableEq, Repr

/-! ### Pieces of code that several functions run -/

/-- The second half of `write_buffer_sync`, and its copy in
`sync_file_writes`, for the task `w`. -/
inductive PushPc where
  | count (w : WriteTask)
  | enqueue (w : WriteTask)
  | init (id : Nat)
  | post (id : Nat)
  deriving DecidableEq, Repr

/-- `free_file_action`. -/
inductive FreePc where
  | acquire (expected : Int)
  | cleanup
  | setNull
  | release
  deriving DecidableEq, Repr

/-- `alloc_file_action`. -/
inductive AllocPc where
  | acquire (expected : Int)
  | init
  | release
  deriving DecidableEq, Repr

/-- `SET_WRITE_ACTION_STATUS`: the two reads of the comparison and the
store. -/
inductive SetPc where
  | readTotreq
  | compare (totreq : Nat)
  | store
  deriving DecidableEq, Repr

/-- `sync_file_writes`. -/
inductive SyncPc where
  | lockHandle
  | checkFile
  | lockAction
  | suspendWrites
  | testAction
  | awaitComplete
  | lowSync
  | lowSyncPush (p : PushPc)
  | fsync
  | fsyncPush (p : PushPc)
  | resumeWrites
  | unlockAction
  | unlockHandle
  deriving DecidableEq, Repr

/-- What a closing task goes on with after `free_file_action`. -/
inductive AfterCloseFree where
  | failed
  | cleanup
  deriving DecidableEq, Repr

/-- `ef_file_close` and the `ef_close_status` it calls. -/
inductive CloseJob where
  | start
  | publish (ret : Int)
  | complete
  | closeStatus
  | lockHandle
  | cleanup
  | freeing (p : FreePc) (k : AfterCloseFree)
  | freeRecord
  | clearSlot
  | unlockHandle
  deriving DecidableEq, Repr

/-! ### The threads -/

/-- How the foreground thread goes on after `free_file_action`. -/
inductive AfterFree where
  | write (buf : List UInt8)
  | sync
  | readDone (nbyte : Nat) (ret : Int) (err : Option Errno)
  | readDrop (nbyte : Nat) (pageOffset : Int)
  | readBuffer (nbyte : Nat) (pageOffset : Int)
  | closeSync (immediate : Bool)
  | closeAlloc (immediate : Bool)
  deriving DecidableEq, Repr

/-- How the foreground thread goes on after `alloc_file_action`. -/
inductive AfterAlloc where
  | write (buf : List UInt8)
  | read (nbyte : Nat)
  | close (immediate : Bool)
  deriving DecidableEq, Repr

/-- How the foreground thread goes on after a push of its own. -/
inductive AfterPush where
  | write (buf : List UInt8) (done : Nat)
  | sync
  deriving DecidableEq, Repr

/-- How the foreground thread goes on after `sync_file_writes` and after
`SET_WRITE_ACTION_STATUS`. -/
inductive AfterSync where
  | read (nbyte : Nat) (pageOffset : Int)
  | close (immediate : Bool)
  deriving DecidableEq, Repr

/-- The foreground thread: between two calls, in a shared piece of code, or
in `ef_write`, `ef_sync`, `ef_read`, `ef_close_api`. `done` is
`bytes_transfered` of `low_ef_write`. -/
inductive ForegroundPc where
  | idle
  | pushing (p : PushPc) (k : AfterPush)
  | freeing (p : FreePc) (k : AfterFree)
  | allocating (p : AllocPc) (oper : FileOper) (k : AfterAlloc)
  | setting (p : SetPc) (k : AfterSync)
  | syncing (p : SyncPc) (k : AfterSync)
  | writeSuspend (buf : List UInt8)
  | writeTest (buf : List UInt8)
  | writeEnsure (buf : List UInt8)
  | writeLoop (buf : List UInt8) (done : Nat)
  | writeResume
  | syncSuspend
  | syncFlush
  | syncResume
  | readSnapshot (nbyte : Nat)
  | readTest (nbyte : Nat) (pageOffset : Int)
  | readDrop (nbyte : Nat) (pageOffset : Int)
  | readBuffer (nbyte : Nat) (pageOffset : Int)
  | readFire (nbyte : Nat)
  | readEnqueue (nbyte : Nat)
  | closeTest (immediate : Bool)
  | closeDrop (immediate : Bool)
  | closeDispatch (immediate : Bool)
  | closing (p : CloseJob)
  deriving DecidableEq, Repr

/-- `file_writer`. `compl` is `compl_count` while a completion event is
handled, and `got` says that `_w_queue` has given an item. -/
inductive FileWriterPc where
  | idle
  | reqTest (id : Nat)
  | cmplCollect (id : Nat)
  | drain (id : Nat) (compl : Option Nat) (got : Bool)
  | fire (id : Nat) (compl : Option Nat)
  | addCmpl (id : Nat) (compl : Nat)
  deriving DecidableEq, Repr

/-- `file_writer` after its loop over `_w_queue`. -/
def afterDrain (id : Nat) : Option Nat → FileWriterPc
  | none => .idle
  | some compl => .addCmpl id compl

/-- What the foreground thread has been told: data that `ef_write` has
accepted, and the results of `ef_read` with the bytes copied to the caller
and `errno` for a failed call. -/
inductive Observed where
  | accepted (buf : List UInt8)
  | readReturned (nbyte : Nat) (ret : Int) (err : Option Errno) (bytes : List UInt8)
  deriving DecidableEq, Repr

/-- One open file with its threads. `slot` says that `sg_open_files[fd]`
points to the record, `recordLive` that the record is allocated. `pushed`,
`executed` and `history` only record what has happened: the items put on
`_w_queue`, the items executed by `ef_file_write`, and what the foreground
thread was told. After a `fault` no thread goes on. -/
structure PipelineState where
  file : EfFile
  recordLive : Bool
  slot : Bool
  status : FileStatus
  action : ActionPtr
  preventActionMutation : Int
  writeSuspended : Int
  handleToFileAction : Int
  nextId : Nat
  fileWriterQueue : List FileWriterTask
  fileWrites : List WriteJob
  fileReads : List ReadJob
  fileCloses : List CloseJob
  foreground : ForegroundPc
  slowSync : Option SyncPc
  fileWriter : FileWriterPc
  pushed : List WriteTask
  executed : List WriteTask
  history : List Observed
  fault : Option Fault
  deriving DecidableEq, Repr

/-- The calls of the foreground thread. -/
inductive Call where
  | efWrite (buf : List UInt8)
  | efSync
  | efRead (nbyte : Nat)
  | efClose (immediate : Bool)
  deriving DecidableEq, Repr

/-- What `ef_read` reads of the record while a write item is being
executed. -/
structure View where
  fileOffset : Nat
  currFileSizeOnDisk : Nat
  bufferIndex : Nat
  deriving DecidableEq, Repr

/-- One step of one thread. A job is given by its place in its list.
`closeFails` is the outcome of the system call `close`. -/
inductive PipelineLabel where
  | call (c : Call) (view : View)
  | foreground (view : View) (closeFails : Bool)
  | slowSync
  | fileWriter
  | writeJob (i : Nat)
  | readJob (i : Nat)
  | closeJob (i : Nat) (closeFails : Bool)
  deriving DecidableEq, Repr

end Efio.Evio
