import Efio.Evio.Open
import Efio.Lib.Objects
import Efio.Lib.Transition

/-!
# `Efio.Evio.FileTable`: the table of open files

`FileTable n T` is what all files of the module share, with the threads
that use it: the `n` slots of `sg_open_files` (`EF_MAX_FILES`), their lock
words, the queue `sg_fd_queue` of the unused slots, the records, and the
descriptors of the system. Any number of threads `T` call the module, each
on other files; the pool runs `ef_file_open`, `ef_file_read` and
`ef_file_close` for them; `slow_sync` goes through the slots.

A record is allocated with arbitrary content, and an access to one that is
not initialised, or not allocated any more, ends in a `TableFault`. So do
an access through an action that is not there, and a system call on a
descriptor that is not open for this record.

The files are open for reading. On such a file `sync_file_writes` looks at
the record and gives the slot back; the writing side of one file, and the
content and the position of a file, are `Efio.Evio.Pipeline`. Where a
function asks for the position, its answer is a parameter of the step.
`_prevent_action_mutation` is taken by one thread at a time on such a file
and is left out.

Accesses that no other thread can tell apart are one step.
-/

set_option autoImplicit false

namespace Efio.Evio

open Efio.Lib

/-! ### Records -/

/-- Flags without write access. -/
def ReadFlags : Type := { oflag : OFlag // ¬ oflag.has (O_RDWR ||| O_WRONLY) }

/-- `ef_file_open` adds at most `O_DIRECT`. -/
theorem openOflag_readOnly {oflag : OFlag} (h : ¬ oflag.has (O_RDWR ||| O_WRONLY)) :
    ¬ (openOflag oflag).has (O_RDWR ||| O_WRONLY) := by
  unfold openOflag
  split
  · exact h
  · unfold OFlag.has at h ⊢
    rw [BitVec.and_comm, BitVec.and_or_distrib_left, BitVec.and_comm _ oflag, not_not.mp h]
    decide

def ReadFlags.rdonly : ReadFlags := ⟨O_RDONLY, by decide⟩

/-- The flags `ef_file_open` passes to `open` and stores. -/
def ReadFlags.opened (oflag : ReadFlags) : ReadFlags := ⟨openOflag oflag.1, openOflag_readOnly oflag.2⟩

/-- `EF_FILE`. `efFd` is `_ef_fd`, which `EF_FILE_INIT` leaves as it is,
`fd` the descriptor of the system (`none` for `-1`), `buffer` says that
`_buf._buffer` is allocated, and `openInp` is the flags in
`_action->_inp._open_inp`. -/
structure FileRecord (n : Nat) where
  efFd : Option (Fin n)
  fd : Option Nat
  oflag : ReadFlags
  status : FileStatus
  buffer : Bool
  action : ActionPtr
  openInp : ReadFlags

/-- How a step can fail. -/
inductive TableFault where
  | evAbort (text : String)
  | nullDeref
  | useAfterFree
  | uninitialised
  | badDescriptor
  deriving DecidableEq, Repr

/-! ### The threads -/

/-- `free_file_action` -/
inductive DropPc where
  | cleanup
  | setNull
  deriving DecidableEq, Repr

/-- `EF_FILE_CLEANUP` under the lock of the slot, and the return of the slot
to `sg_fd_queue`: the end of `ef_open_status` and of `ef_close_status`. -/
inductive CleanupPc where
  | lockHandle
  | testAction
  | freeAction (p : DropPc)
  | freeBuffer
  | freeRecord
  | clearSlot
  | unlockHandle
  | enqueue
  deriving DecidableEq, Repr

/-- `sync_file_writes`. `p` is `file_ptr`. -/
inductive SlotSyncPc where
  | lockHandle
  | checkFile
  | checkStatus (p : Nat)
  | checkOflag (p : Nat)
  | unlockHandle
  deriving DecidableEq, Repr

/-- `ef_file_open` -/
inductive OpenTask where
  | start
  | sysOpen
  | publish
  | complete
  | setStatus
  | notify
  deriving DecidableEq, Repr

/-- `ef_file_read`. `wasEmpty` is `buf_was_empty`. -/
inductive ReadTask where
  | start
  | load
  | publish (bytes : Option Nat) (wasEmpty : Bool)
  | complete (wasEmpty : Bool)
  | notify (wasEmpty : Bool)
  deriving DecidableEq, Repr

/-- `ef_file_close`, and the `ef_close_status` it calls on the slot `fd`. -/
inductive CloseTask (n : Nat) where
  | start
  | freeBuffer
  | sysClose
  | publish (ret : Int)
  | setStatus
  | complete
  | notify
  | readFd
  | statusSlot (fd : Fin n)
  | statusAction (fd : Fin n)
  | freeAction (fd : Fin n) (d : DropPc)
  | cleanup (fd : Fin n) (c : CleanupPc)
  deriving DecidableEq, Repr

/-- A task of the disk pool on the record `p`. -/
inductive DiskTask (n : Nat) where
  | efFileOpen (p : Nat) (pc : OpenTask)
  | efFileRead (p : Nat) (pc : ReadTask)
  | efFileClose (p : Nat) (pc : CloseTask n)
  deriving DecidableEq, Repr

/-- How `low_ef_read` goes on after `free_file_action`. -/
inductive AfterReadFree where
  | done (ret : Int) (err : Option Errno)
  | drop
  | buffer
  deriving DecidableEq, Repr

/-- A thread in `ef_open`, `ef_open_status`, `ef_read` or `ef_close_api` on
the slot `fd`. The names say what it does next. -/
inductive TablePc (n : Nat) where
  | idle
  -- `ef_open`
  | openLock (fd : Fin n) (oflag : ReadFlags)
  | openPublish (fd : Fin n) (oflag : ReadFlags)
  | openUnlock (fd : Fin n) (p : Nat) (oflag : ReadFlags)
  | openInit (fd : Fin n) (p : Nat) (oflag : ReadFlags)
  | openAction (fd : Fin n) (p : Nat) (oflag : ReadFlags)
  | openAttempt (fd : Fin n) (p : Nat)
  | openEnqueue (fd : Fin n) (p : Nat)
  -- `ef_open_status`
  | statusTest (fd : Fin n)
  | statusFree (fd : Fin n) (d : DropPc)
  | statusCleanup (fd : Fin n) (err : Option Errno) (c : CleanupPc)
  -- `low_ef_read`
  | readDispatch (fd : Fin n)
  | readFree (fd : Fin n) (d : DropPc) (k : AfterReadFree)
  | readDrop (fd : Fin n)
  | readBuffer (fd : Fin n)
  | readFire (fd : Fin n)
  | readEnqueue (fd : Fin n)
  -- `ef_close_api`
  | closeFree (fd : Fin n) (immediate synced : Bool) (d : DropPc)
  | syncing (fd : Fin n) (immediate : Bool) (p : SlotSyncPc)
  | closeTest (fd : Fin n) (immediate : Bool)
  | closeDrop (fd : Fin n) (immediate : Bool)
  | closeAlloc (fd : Fin n) (immediate : Bool)
  | closeDispatch (fd : Fin n) (immediate : Bool)
  | closing (fd : Fin n) (p : Nat) (pc : CloseTask n)

/-- `slow_sync`: asleep, about to look at `sg_open_files[i]`, or in
`sync_file_writes(i)`. -/
inductive ScanPc (n : Nat) where
  | asleep
  | test (i : Nat)
  | syncing (i : Fin n) (p : SlotSyncPc)
  deriving DecidableEq, Repr

/-- Who is concerned with a slot: nobody while it is in `sg_fd_queue`, the
thread that has opened it, or the task that closes it. After a failed
`close` nobody is any more. -/
inductive Custody (T : Type) where
  | queued
  | held (t : T)
  | closing
  | lost
  deriving DecidableEq, Repr

/-- The table with the threads that use it. `descriptors` are the open
descriptors of the system, each with the record it was opened for.
`returned` is what the last call of a thread has returned, with `errno` for
a failed call. `custody` only records what has happened. -/
structure FileTable (n : Nat) (T : Type) where
  fdQueue : List (Fin n)
  openFiles : Fin n → Option Nat
  handleToFileAction : Fin n → Int
  cbFunc : Bool
  records : Objects (FileRecord n)
  descriptors : Objects Nat
  nextAction : Nat
  tasks : Objects (DiskTask n)
  foreground : T → TablePc n
  slowSync : ScanPc n
  returned : T → Int × Option Errno
  custody : Fin n → Custody T
  fault : Option TableFault

/-- The calls of a thread. `argsOk` and `atEof` are the outcomes of the
tests of `chk_read_conditions` on the arguments and on the position. -/
inductive TableCall (n : Nat) where
  | efOpen (path : String) (oflag : ReadFlags)
  | efOpenStatus (fd : Fin n)
  | efRead (fd : Fin n) (argsOk atEof : Bool)
  | efClose (fd : Fin n) (immediate : Bool)

/-- The slot a call is about. -/
def TableCall.slot? {n : Nat} : TableCall n → Option (Fin n)
  | .efOpen _ _ => none
  | .efOpenStatus fd | .efRead fd _ _ | .efClose fd _ => some fd

/-- A thread starts a call or goes on, a task goes on, `slow_sync` goes on,
the callback is set or unset, a thread leaves a slot to another one. `yes`
answers a question about the position, or says that a system call succeeds;
`bytes` is the outcome of a system call (`none` for `-1`), or the number of
bytes that `ef_read` copies. -/
inductive TableLabel (n : Nat) (T : Type) where
  | call (t : T) (c : TableCall n)
  | foreground (t : T) (yes : Bool) (bytes : Nat)
  | task (i : Nat) (bytes : Option Nat)
  | slowSync
  | setCbFunc (set : Bool)
  | handOver (fd : Fin n) (t : T)

namespace FileTable

variable {n : Nat} {T : Type}

/-! ### Access to the memory -/

/-- An access to the record `p`. -/
def derefRecord (s : FileTable n T) (p : Nat) : Except TableFault (FileRecord n) :=
  match s.records.cells p with
  | .unallocated => .error .useAfterFree
  | .raw => .error .uninitialised
  | .live r => .ok r

/-- An access to `sg_open_files[fd]->...`. -/
def derefSlot (s : FileTable n T) (fd : Fin n) : Except TableFault (Nat × FileRecord n) :=
  match s.openFiles fd with
  | none => .error .nullDeref
  | some p => do
    let r ← s.derefRecord p
    return (p, r)

/-- The action of a record, if there is one. -/
def testAction (r : FileRecord n) : Except TableFault (Option (Nat × FileCmd)) :=
  match r.action with
  | .null => .ok none
  | .freed => .error .useAfterFree
  | .live id a => .ok (some (id, a))

/-- An access through `_action`. -/
def derefAction (r : FileRecord n) : Except TableFault (Nat × FileCmd) :=
  match r.action with
  | .null => .error .nullDeref
  | .freed => .error .useAfterFree
  | .live id a => .ok (id, a)

/-- A system call on the descriptor of the record `p`. -/
def derefFd (s : FileTable n T) (p : Nat) (r : FileRecord n) : Except TableFault Nat :=
  match r.fd with
  | none => .error .badDescriptor
  | some k => if s.descriptors.cells k = .live p then .ok k else .error .badDescriptor

def setRecord (s : FileTable n T) (p : Nat) (r : FileRecord n) : FileTable n T :=
  { s with records := s.records.set p (.live r) }

/-- `file_ptr->_action` points to `a`. -/
def setAction (s : FileTable n T) (p : Nat) (r : FileRecord n) (id : Nat) (a : FileCmd) :
    FileTable n T :=
  s.setRecord p { r with action := .live id a }

/-- `alloc_file_action` -/
def allocAction (s : FileTable n T) (p : Nat) (r : FileRecord n) (oper : FileOper) : FileTable n T :=
  { s.setAction p r s.nextAction (eioCmdInit oper) with nextAction := s.nextAction + 1 }

/-- `enqueue_task` -/
def enqueueTask (s : FileTable n T) (task : DiskTask n) : FileTable n T :=
  { s with tasks := s.tasks.malloc (.live task) }

def setCustody (s : FileTable n T) (fd : Fin n) (c : Custody T) : FileTable n T :=
  { s with custody := Function.update s.custody fd c }

/-- `EF_FILE_INIT`. There is no `openInp` without an action. -/
def fileInit : FileRecord n :=
  { efFd := none
    fd := none
    oflag := .rdonly
    status := .fileNotOpen
    buffer := false
    action := .null
    openInp := .rdonly }

/-! ### Shared pieces of code -/

/-- `free_file_action` on the record `p`. -/
def dropStep (s : FileTable n T) (p : Nat) (r : FileRecord n) :
    DropPc → Except TableFault (FileTable n T × Option DropPc)
  | .cleanup => do
    let _ ← derefAction r
    return (s.setRecord p { r with action := .freed }, some .setNull)
  | .setNull => return (s.setRecord p { r with action := .null }, none)

/-- `atomic_compare_exchange_strong(&sg_handle_to_file_action[fd], &htfa, 1)`,
and whether it succeeds. -/
def lockHandle (s : FileTable n T) (fd : Fin n) : FileTable n T × Bool :=
  let c := atomicCompareExchangeStrong (s.handleToFileAction fd) 0 1
  ({ s with handleToFileAction := Function.update s.handleToFileAction fd c.word }, c.ok)

/-- The exchange of `1` for `0`. -/
def unlockHandle (s : FileTable n T) (fd : Fin n) : FileTable n T :=
  let c := atomicCompareExchangeStrong (s.handleToFileAction fd) 1 0
  { s with handleToFileAction := Function.update s.handleToFileAction fd c.word }

/-- `EF_FILE_CLEANUP(sg_open_files[fd])` and `st_enqueue_sg_fd_queue(fd)`. -/
def cleanupStep (s : FileTable n T) (fd : Fin n) :
    CleanupPc → Except TableFault (FileTable n T × Option CleanupPc)
  | .lockHandle =>
    let (s, ok) := s.lockHandle fd
    return (s, some (if ok then .testAction else .lockHandle))
  | .testAction => do
    let (_, r) ← s.derefSlot fd
    return (s, some (if r.action = .null then .freeBuffer else .freeAction .cleanup))
  | .freeAction d => do
    let (p, r) ← s.derefSlot fd
    let (s, d) ← s.dropStep p r d
    return (s, some (d.elim .freeBuffer .freeAction))
  | .freeBuffer => do
    let (p, r) ← s.derefSlot fd
    return (s.setRecord p { r with buffer := false }, some .freeRecord)
  | .freeRecord => do
    let (p, _) ← s.derefSlot fd
    return ({ s with records := s.records.set p .unallocated }, some .clearSlot)
  | .clearSlot =>
    return ({ s with openFiles := Function.update s.openFiles fd none }, some .unlockHandle)
  | .unlockHandle => return (s.unlockHandle fd, some .enqueue)
  | .enqueue => return ({ s.setCustody fd .queued with fdQueue := s.fdQueue ++ [fd] }, none)

/-- `sync_file_writes` on a file open for reading. -/
def slotSyncStep (s : FileTable n T) (fd : Fin n) :
    SlotSyncPc → Except TableFault (FileTable n T × Option SlotSyncPc)
  | .lockHandle =>
    let (s, ok) := s.lockHandle fd
    return (s, some (if ok then .checkFile else .lockHandle))
  | .checkFile => return (s, some ((s.openFiles fd).elim .unlockHandle .checkStatus))
  | .checkStatus p => do
    let r ← s.derefRecord p
    return (s, some (if r.status ≠ .fileOpen then .unlockHandle else .checkOflag p))
  | .checkOflag p => do
    -- The flags have no write access (`ReadFlags`).
    let _ ← s.derefRecord p
    return (s, some .unlockHandle)
  | .unlockHandle => return (s.unlockHandle fd, none)

/-- `cb_func(file_ptr->_ef_fd, ...)`, if a callback is set. -/
def notify (s : FileTable n T) (p : Nat) : Except TableFault Unit :=
  if s.cbFunc then do
    let r ← s.derefRecord p
    if r.efFd.isNone then .error .uninitialised else .ok ()
  else .ok ()

/-! ### The tasks of the disk pool -/

/-- `ef_file_open` on the record `p`, where `opens` says whether `open`
succeeds. -/
def openStep (opens : Bool) (s : FileTable n T) (p : Nat) :
    OpenTask → Except TableFault (FileTable n T × Option OpenTask)
  | .start => do
    let r ← s.derefRecord p
    match ← testAction r with
    | none => return (s, none)
    | some (id, a) =>
      return (s.setAction p r id { a with actionStatus := .actionInProgress }, some .sysOpen)
  | .sysOpen => do
    let r ← s.derefRecord p
    let _ ← derefAction r
    if opens then
      return ({ s.setRecord p { r with fd := some s.descriptors.fresh, oflag := r.openInp.opened } with
        descriptors := s.descriptors.malloc (.live p) }, some .publish)
    else return (s.setRecord p { r with fd := none }, some .publish)
  | .publish => do
    let r ← s.derefRecord p
    let (id, a) ← derefAction r
    return (s.setAction p r id { a with
      returnValue := r.fd.elim (-1) fun k => k
      err := if r.fd.isNone then some .eio else none }, some .complete)
  | .complete => do
    let r ← s.derefRecord p
    let (id, a) ← derefAction r
    return (s.setAction p r id { a with actionStatus := .actionComplete }, some .setStatus)
  | .setStatus => do
    let r ← s.derefRecord p
    return (s.setRecord p { r with status := if r.fd.isNone then .fileNotOpen else .fileOpen },
      some .notify)
  | .notify => do
    s.notify p
    return (s, none)

/-- `ef_file_read` on the record `p`, where `bytes` is what `pread` returns. -/
def readStep (bytes : Option Nat) (s : FileTable n T) (p : Nat) :
    ReadTask → Except TableFault (FileTable n T × Option ReadTask)
  | .start => do
    let r ← s.derefRecord p
    let (id, a) ← derefAction r
    return (s.setAction p r id { a with actionStatus := .actionInProgress }, some .load)
  | .load => do
    let r ← s.derefRecord p
    let _ ← s.derefFd p r
    return (s.setRecord p { r with buffer := true }, some (.publish bytes (!r.buffer)))
  | .publish ret wasEmpty => do
    let r ← s.derefRecord p
    let (id, a) ← derefAction r
    return (s.setAction p r id { a with
      returnValue := ret.elim (-1) fun k => k
      err := if ret.isNone then some .eio else none }, some (.complete wasEmpty))
  | .complete wasEmpty => do
    let r ← s.derefRecord p
    let (id, a) ← derefAction r
    return (s.setAction p r id { a with actionStatus := .actionComplete }, some (.notify wasEmpty))
  | .notify wasEmpty => do
    if wasEmpty then s.notify p
    return (s, none)

/-- `ef_file_close` on the record `p`, where `closes` says whether `close`
succeeds, and `ef_close_status`. -/
def closeStep (closes : Bool) (s : FileTable n T) (p : Nat) :
    CloseTask n → Except TableFault (FileTable n T × Option (CloseTask n))
  | .start => do
    let r ← s.derefRecord p
    match ← testAction r with
    | none => return (s, none)
    | some (id, a) =>
      return (s.setAction p r id { a with actionStatus := .actionInProgress }, some .freeBuffer)
  | .freeBuffer => do
    let r ← s.derefRecord p
    return (s.setRecord p { r with buffer := false }, some .sysClose)
  | .sysClose => do
    let r ← s.derefRecord p
    let k ← s.derefFd p r
    return ({ s with descriptors := s.descriptors.set k .unallocated },
      some (.publish (if closes then 0 else -1)))
  | .publish ret => do
    let r ← s.derefRecord p
    let (id, a) ← derefAction r
    return (s.setAction p r id { a with
      returnValue := ret
      err := if ret = -1 then some .eio else none }, some .setStatus)
  | .setStatus => do
    let r ← s.derefRecord p
    return (s.setRecord p { r with status := .fileNotOpen }, some .complete)
  | .complete => do
    let r ← s.derefRecord p
    let (id, a) ← derefAction r
    return (s.setAction p r id { a with actionStatus := .actionComplete }, some .notify)
  | .notify => do
    s.notify p
    return (s, some .readFd)
  | .readFd => do
    let r ← s.derefRecord p
    match r.efFd with
    | none => .error .uninitialised
    | some fd => return (s, some (.statusSlot fd))
  | .statusSlot fd => return (s, if (s.openFiles fd).isNone then none else some (.statusAction fd))
  | .statusAction fd => do
    let (_, r) ← s.derefSlot fd
    match ← testAction r with
    | none => return (s, none)
    | some (_, a) =>
      if a.cmd ≠ .operClose ∨ a.actionStatus ≠ .actionComplete ∨ a.returnValue = -100 then
        return (s, none)
      else if a.returnValue = -1 then return (s, some (.freeAction fd .cleanup))
      else return (s, some (.cleanup fd .lockHandle))
  | .freeAction fd d => do
    let (p, r) ← s.derefSlot fd
    let (s, d) ← s.dropStep p r d
    match d with
    | some d => return (s, some (.freeAction fd d))
    | none => return (s.setCustody fd .lost, none)
  | .cleanup fd c => do
    let (s, c) ← s.cleanupStep fd c
    return (s, c.map (.cleanup fd))

/-- The task goes on. -/
def diskStep (bytes : Option Nat) (s : FileTable n T) :
    DiskTask n → Except TableFault (FileTable n T × Option (DiskTask n))
  | .efFileOpen p pc => do
    let (s, pc) ← s.openStep bytes.isSome p pc
    return (s, pc.map (.efFileOpen p))
  | .efFileRead p pc => do
    let (s, pc) ← s.readStep bytes p pc
    return (s, pc.map (.efFileRead p))
  | .efFileClose p pc => do
    let (s, pc) ← s.closeStep bytes.isSome p pc
    return (s, pc.map (.efFileClose p))

/-- The task with number `i` moves, and is done when it has no next place. -/
def taskStep (i : Nat) (bytes : Option Nat) (s : FileTable n T) :
    Option (Except TableFault (FileTable n T)) :=
  match s.tasks.cells i with
  | .live task => some do
    let (s, next) ← s.diskStep bytes task
    return { s with tasks := s.tasks.set i (next.elim .unallocated .live) }
  | .unallocated | .raw => none

/-! ### The calls -/

section Foreground

variable [DecidableEq T]

/-- Thread `t` goes to `pc`. -/
def goto (s : FileTable n T) (t : T) (pc : TablePc n) : FileTable n T :=
  { s with foreground := Function.update s.foreground t pc }

/-- The call of thread `t` returns. -/
def finish (s : FileTable n T) (t : T) (ret : Int) (err : Option Errno) : FileTable n T :=
  { s.goto t .idle with returned := Function.update s.returned t (ret, err) }

/-- The steps of `ef_open` behind the choice of the slot. -/
def efOpenStep (s : FileTable n T) (t : T) : TablePc n → Except TableFault (FileTable n T)
  | .openLock fd oflag =>
    let (s, ok) := s.lockHandle fd
    return s.goto t (if ok then .openPublish fd oflag else .openLock fd oflag)
  | .openPublish fd oflag =>
    return { s with
      records := s.records.malloc .raw
      openFiles := Function.update s.openFiles fd (some s.records.fresh) }.goto t
        (.openUnlock fd s.records.fresh oflag)
  | .openUnlock fd p oflag => return (s.unlockHandle fd).goto t (.openInit fd p oflag)
  | .openInit fd p oflag =>
    match s.records.cells p with
    | .unallocated => .error .useAfterFree
    | .raw | .live _ => return (s.setRecord p fileInit).goto t (.openAction fd p oflag)
  | .openAction fd p oflag => do
    let r ← s.derefRecord p
    return (s.allocAction p { r with efFd := some fd, openInp := oflag } .operOpen).goto t
      (.openAttempt fd p)
  | .openAttempt fd p => do
    let r ← s.derefRecord p
    return (s.setRecord p { r with status := .fileOpenAttempted }).goto t (.openEnqueue fd p)
  | .openEnqueue fd p => return (s.enqueueTask (.efFileOpen p .start)).finish t fd none
  | _ => return s

/-- The steps of `ef_open_status` behind the test of `_status`. -/
def efOpenStatusStep (s : FileTable n T) (t : T) : TablePc n → Except TableFault (FileTable n T)
  | .statusTest fd => do
    let (_, r) ← s.derefSlot fd
    match ← testAction r with
    | some (_, a) =>
      if a.cmd = .operOpen then
        if a.actionStatus ≠ .actionComplete then return s.finish t (-1) (some .eagain)
        else if a.returnValue = -1 then return s.goto t (.statusCleanup fd a.err .lockHandle)
        else if a.returnValue = -100 then return s.finish t (-1) (some .eagain)
        else return s.goto t (.statusFree fd .cleanup)
      else if r.status = .fileOpen then return s.finish t fd none
      else return s.finish t (-1) (some .ebadf)
    | none =>
      if r.status = .fileOpen then return s.finish t fd none
      else return s.finish t (-1) (some .ebadf)
  | .statusFree fd d => do
    let (p, r) ← s.derefSlot fd
    let (s, d) ← s.dropStep p r d
    match d with
    | some d => return s.goto t (.statusFree fd d)
    | none => return s.finish t fd none
  | .statusCleanup fd err c => do
    let (s, c) ← s.cleanupStep fd c
    match c with
    | some c => return s.goto t (.statusCleanup fd err c)
    | none => return s.finish t (-1) err
  | _ => return s

/-- The steps of `low_ef_read` behind `chk_read_conditions`. `pageUsed` says
whether the transfer of `bytes` bytes reaches the end of the page. -/
def efReadStep (pageUsed : Bool) (bytes : Nat) (s : FileTable n T) (t : T) :
    TablePc n → Except TableFault (FileTable n T)
  | .readDispatch fd => do
    let (_, r) ← s.derefSlot fd
    match ← testAction r with
    | none => return s.goto t (.readDrop fd)
    | some (_, a) =>
      if a.cmd = .operRead then
        if a.actionStatus ≠ .actionComplete ∨ a.returnValue = -100 then
          return s.finish t (-1) (some .eagain)
        else if a.returnValue = -1 then return s.goto t (.readFree fd .cleanup (.done (-1) a.err))
        else if a.returnValue = 0 then return s.goto t (.readFree fd .cleanup (.done 0 none))
        else return s.goto t (.readFree fd .cleanup .drop)
      else if a.actionStatus ≠ .actionComplete then return s.finish t (-1) (some .ebusy)
      else return s.goto t (.readDrop fd)
  | .readFree fd d k => do
    let (p, r) ← s.derefSlot fd
    let (s, d) ← s.dropStep p r d
    match d, k with
    | some d, k => return s.goto t (.readFree fd d k)
    | none, .done ret err => return s.finish t ret err
    | none, .drop => return s.goto t (.readDrop fd)
    | none, .buffer => return s.goto t (.readBuffer fd)
  | .readDrop fd => do
    let (_, r) ← s.derefSlot fd
    match ← testAction r with
    | some (_, a) =>
      return s.goto t
        (if a.actionStatus = .actionComplete then .readFree fd .cleanup .buffer else .readBuffer fd)
    | none => return s.goto t (.readBuffer fd)
  | .readBuffer fd => do
    let (p, r) ← s.derefSlot fd
    if r.buffer then return (s.setRecord p { r with buffer := !pageUsed }).finish t bytes none
    else
      match ← testAction r with
      | some _ => return s.finish t (-1) (some .eagain)
      | none => return s.goto t (.readFire fd)
  | .readFire fd => do
    let (p, r) ← s.derefSlot fd
    match r.action with
    | .null => return (s.allocAction p r .operRead).goto t (.readEnqueue fd)
    | .live _ _ | .freed => .error (.evAbort "THIS CAN NEVER HAPPEN \n")
  | .readEnqueue fd => do
    let (p, _) ← s.derefSlot fd
    return (s.enqueueTask (.efFileRead p .start)).finish t (-1) (some .eagain)
  | _ => return s

/-- The steps of `ef_close_api` behind its tests. -/
def efCloseStep (closes : Bool) (s : FileTable n T) (t : T) :
    TablePc n → Except TableFault (FileTable n T)
  | .closeFree fd immediate synced d => do
    let (p, r) ← s.derefSlot fd
    let (s, d) ← s.dropStep p r d
    match d with
    | some d => return s.goto t (.closeFree fd immediate synced d)
    | none =>
      return s.goto t
        (if synced then .closeAlloc fd immediate else .syncing fd immediate .lockHandle)
  | .syncing fd immediate p => do
    let (s, p) ← s.slotSyncStep fd p
    return s.goto t (p.elim (.closeTest fd immediate) (.syncing fd immediate))
  | .closeTest fd immediate => do
    let (_, r) ← s.derefSlot fd
    match ← testAction r with
    | some (_, a) =>
      return s.goto t
        (if a.actionStatus ≠ .actionComplete then .closeTest fd immediate else .closeDrop fd immediate)
    | none => return s.goto t (.closeDrop fd immediate)
  | .closeDrop fd immediate => do
    let (_, r) ← s.derefSlot fd
    return s.goto t
      (if r.action = .null then .closeAlloc fd immediate else .closeFree fd immediate true .cleanup)
  | .closeAlloc fd immediate => do
    let (p, r) ← s.derefSlot fd
    return (s.allocAction p r .operClose).goto t (.closeDispatch fd immediate)
  | .closeDispatch fd immediate => do
    let (p, _) ← s.derefSlot fd
    if immediate then return s.goto t (.closing fd p .start)
    else return ((s.enqueueTask (.efFileClose p .start)).setCustody fd .closing).finish t 0 none
  | .closing fd p pc => do
    let (s, pc) ← s.closeStep closes p pc
    match pc with
    | some pc => return s.goto t (.closing fd p pc)
    | none => return s.finish t 0 none
  | _ => return s

/-- The next step of the thread `t` inside a call. -/
def foregroundStep (yes : Bool) (bytes : Nat) (s : FileTable n T) (t : T) :
    Except TableFault (FileTable n T) :=
  match s.foreground t with
  | .idle => .ok s
  | .openLock fd oflag => s.efOpenStep t (.openLock fd oflag)
  | .openPublish fd oflag => s.efOpenStep t (.openPublish fd oflag)
  | .openUnlock fd p oflag => s.efOpenStep t (.openUnlock fd p oflag)
  | .openInit fd p oflag => s.efOpenStep t (.openInit fd p oflag)
  | .openAction fd p oflag => s.efOpenStep t (.openAction fd p oflag)
  | .openAttempt fd p => s.efOpenStep t (.openAttempt fd p)
  | .openEnqueue fd p => s.efOpenStep t (.openEnqueue fd p)
  | .statusTest fd => s.efOpenStatusStep t (.statusTest fd)
  | .statusFree fd d => s.efOpenStatusStep t (.statusFree fd d)
  | .statusCleanup fd err c => s.efOpenStatusStep t (.statusCleanup fd err c)
  | .readDispatch fd => s.efReadStep yes bytes t (.readDispatch fd)
  | .readFree fd d k => s.efReadStep yes bytes t (.readFree fd d k)
  | .readDrop fd => s.efReadStep yes bytes t (.readDrop fd)
  | .readBuffer fd => s.efReadStep yes bytes t (.readBuffer fd)
  | .readFire fd => s.efReadStep yes bytes t (.readFire fd)
  | .readEnqueue fd => s.efReadStep yes bytes t (.readEnqueue fd)
  | pc => s.efCloseStep yes t pc

/-- The start of a call, up to its first step on shared memory. -/
def callStep (s : FileTable n T) (t : T) : TableCall n → Except TableFault (FileTable n T)
  | .efOpen path oflag =>
    if path = "" ∨ ¬ efOpenAccepts oflag.1 then return s.finish t (-1) (some .einval)
    else
      match s.fdQueue with
      | [] => return s.finish t (-1) (some .emfile)
      | fd :: rest =>
        return { s.setCustody fd (.held t) with fdQueue := rest }.goto t (.openLock fd oflag)
  | .efOpenStatus fd => do
    match s.openFiles fd with
    | none => return s.finish t (-1) (some .einval)
    | some p =>
      let r ← s.derefRecord p
      if r.status = .fileOpenAttempted then return s.finish t (-1) (some .eagain)
      else return s.goto t (.statusTest fd)
  | .efRead fd argsOk atEof => do
    match s.openFiles fd with
    | none => return s.finish t (-1) (some .einval)
    | some p =>
      if ¬ argsOk then return s.finish t (-1) (some .einval)
      let r ← s.derefRecord p
      if r.status ≠ .fileOpen then return s.finish t (-1) (some .ebadf)
      if atEof then return s.finish t 0 none
      let flg := if r.oflag.1.has O_DIRECT then r.oflag.1 ^^^ O_DIRECT else r.oflag.1
      if ¬ flg.has O_RDWR ∧ flg ≠ O_RDONLY then return s.finish t (-1) (some .ebadf)
      return s.goto t (.readDispatch fd)
  | .efClose fd immediate => do
    match s.openFiles fd with
    | none => return s.finish t (-1) (some .einval)
    | some p =>
      let r ← s.derefRecord p
      if r.status ≠ .fileOpen then return s.finish t (-1) (some .ebadf)
      match ← testAction r with
      | none => return s.goto t (.syncing fd immediate .lockHandle)
      | some (_, a) =>
        if a.cmd = .operClose then return s.finish t (-1) (some .ebusy)
        else if a.cmd ≠ .operWrite ∧ a.actionStatus ≠ .actionComplete then
          return s.finish t (-1) (some .eagain)
        else if a.actionStatus = .actionComplete then
          return s.goto t (.closeFree fd immediate false .cleanup)
        else return s.goto t (.syncing fd immediate .lockHandle)

end Foreground

/-! ### The whole system -/

/-- `slow_sync`. Nothing is ever put on `sg_slow_sync_queue`. -/
def slowSyncStep (s : FileTable n T) : Except TableFault (FileTable n T) :=
  match s.slowSync with
  | .asleep => .ok { s with slowSync := .test 0 }
  | .test i =>
    .ok { s with
      slowSync :=
        if h : i < n then
          if (s.openFiles ⟨i, h⟩).isSome then .syncing ⟨i, h⟩ .lockHandle else .test (i + 1)
        else .asleep }
  | .syncing i p => do
    let (s, p) ← s.slotSyncStep i p
    return { s with slowSync := p.elim (.test (i + 1)) (.syncing i) }

variable [DecidableEq T]

/-- The step with label `l`, or its fault. -/
def threadStep (l : TableLabel n T) (s : FileTable n T) : Option (Except TableFault (FileTable n T)) :=
  match l with
  | .call t c =>
    match s.foreground t with
    | .idle => some (s.callStep t c)
    | _ => none
  | .foreground t yes bytes =>
    match s.foreground t with
    | .idle => none
    | _ => some (s.foregroundStep yes bytes t)
  | .task i bytes => s.taskStep i bytes
  | .slowSync => some s.slowSyncStep
  | .setCbFunc set => some (.ok { s with cbFunc := set })
  | .handOver fd t' =>
    match s.custody fd with
    | .held t =>
      match s.foreground t with
      | .idle => some (.ok (s.setCustody fd (.held t')))
      | _ => none
    | .queued | .closing | .lost => none

/-- The steps of the system. A fault ends the run. -/
def step (l : TableLabel n T) (s : FileTable n T) : Option (FileTable n T) :=
  if s.fault.isSome then none
  else
    (s.threadStep l).map fun r =>
      match r with
      | .ok s' => s'
      | .error e => { s with fault := some e }

/-- The state `ef_init` leaves: `setup_fd_slots` has queued every slot. -/
def initial : FileTable n T :=
  { fdQueue := List.finRange n
    openFiles := fun _ => none
    handleToFileAction := fun _ => 0
    cbFunc := false
    records := .empty
    descriptors := .empty
    nextAction := 0
    tasks := .empty
    foreground := fun _ => .idle
    slowSync := .asleep
    returned := fun _ => (0, none)
    custody := fun _ => .queued
    fault := none }

end FileTable

end Efio.Evio
