import Efio.Evio.Threads
import Mathlib.Algebra.Group.Nat.Defs

/-!
# `Efio.Evio.Pipeline`: the steps of the threads on one open file

`PipelineState.step` moves one thread by one step. A piece of shared code
(`pushStep`, `freeStep`, `allocStep`, `setStep`, `syncStep`, `closeStep`)
returns the next place, or `none` when it is done and its caller goes on.

Every access to the record needs it to be allocated, and every access
through `_action` needs a live action (`derefRecord`, `derefAction`,
`derefWriteInp`); otherwise the step ends in a `Fault`.
-/

set_option autoImplicit false

namespace Efio.Evio

open Efio.Lib

namespace PipelineState

/-! ### Access to the record and the action -/

/-- An access to the record. -/
def derefRecord (s : PipelineState) : Except Fault Unit :=
  if s.recordLive then .ok () else .error .useAfterFree

/-- An access through `file_ptr->_action`. -/
def derefAction (s : PipelineState) : Except Fault (Nat × FileCmd) := do
  s.derefRecord
  match s.action with
  | .null => .error .nullDeref
  | .freed => .error .useAfterFree
  | .live id a => .ok (id, a)

/-- An access to `file_ptr->_action->_inp._write_inp`. -/
def derefWriteInp (s : PipelineState) : Except Fault (Nat × FileCmd × WriteOper) := do
  let (id, a) ← s.derefAction
  match a.writeInp with
  | some inp => .ok (id, a, inp)
  | none => .error .wrongMember

/-- The test `file_ptr->_action`, and the action if there is one. -/
def testAction (s : PipelineState) : Except Fault (Option (Nat × FileCmd)) := do
  s.derefRecord
  match s.action with
  | .null => .ok none
  | .freed => .error .useAfterFree
  | .live id a => .ok (some (id, a))

def setAction (s : PipelineState) (id : Nat) (a : FileCmd) : PipelineState :=
  { s with action := .live id a }

def setWriteInp (s : PipelineState) (id : Nat) (a : FileCmd) (inp : WriteOper) : PipelineState :=
  s.setAction id { a with writeInp := some inp }

/-! ### Shared pieces of code -/

/-- The second half of `write_buffer_sync`: the task is counted, queued and
announced. -/
def pushStep (s : PipelineState) : PushPc → Except Fault (PipelineState × Option PushPc)
  | .count w => do
    let (id, a, inp) ← s.derefWriteInp
    return (s.setWriteInp id a { inp with writeTotreqCount := inp.writeTotreqCount + 1 },
      some (.enqueue w))
  | .enqueue w => do
    let (id, a, inp) ← s.derefWriteInp
    return ({ s.setWriteInp id a { inp with wQueue := inp.wQueue ++ [w] } with
      pushed := s.pushed ++ [w] }, some (.init id))
  | .init id => do
    let (id', a) ← s.derefAction
    return (s.setAction id' (lowEioCmdInit a), some (.post id))
  | .post id =>
    return ({ s with fileWriterQueue := s.fileWriterQueue ++ [.fwWriteReqEvt id] }, none)

/-- `low_ef_sync` up to the push: a filled accumulator becomes a task. -/
def lowEfSync (s : PipelineState) : Except Fault (PipelineState × Option PushPc) := do
  match ← s.testAction with
  | some (id, a) =>
    if a.cmd ≠ .operWrite then return (s, none)
    match a.writeInp with
    | none => .error .wrongMember
    | some inp =>
      if inp.wAccum = [] then return (s, none)
      return (s.setWriteInp id a { inp with wAccum := [] }, some (.count ⟨.fileWriteEvt, inp.wAccum⟩))
  | none => return (s, none)

/-- `free_file_action`. The loop keeps the `expected` value of a failed
attempt. -/
def freeStep (s : PipelineState) : FreePc → Except Fault (PipelineState × Option FreePc)
  | .acquire expected => do
    s.derefRecord
    let c := atomicCompareExchangeStrong s.preventActionMutation expected 1
    return ({ s with preventActionMutation := c.word },
      some (if c.ok then .cleanup else .acquire c.expected))
  | .cleanup => do
    let (_, a) ← s.derefAction
    if a.cmd = .operWrite ∧ a.writeInp.isNone then .error .wrongMember
    else return ({ s with action := .freed }, some .setNull)
  | .setNull => do
    s.derefRecord
    return ({ s with action := .null }, some .release)
  | .release => do
    s.derefRecord
    let c := atomicCompareExchangeStrong s.preventActionMutation 1 0
    return ({ s with preventActionMutation := c.word }, none)

/-- `alloc_file_action`. -/
def allocStep (oper : FileOper) (s : PipelineState) :
    AllocPc → Except Fault (PipelineState × Option AllocPc)
  | .acquire expected => do
    s.derefRecord
    let c := atomicCompareExchangeStrong s.preventActionMutation expected 1
    return ({ s with preventActionMutation := c.word },
      some (if c.ok then .init else .acquire c.expected))
  | .init => do
    s.derefRecord
    return ({ s with action := .live s.nextId (eioCmdInit oper), nextId := s.nextId + 1 },
      some .release)
  | .release => do
    s.derefRecord
    let c := atomicCompareExchangeStrong s.preventActionMutation 1 0
    return ({ s with preventActionMutation := c.word }, none)

/-- `SET_WRITE_ACTION_STATUS`. -/
def setStep (s : PipelineState) : SetPc → Except Fault (PipelineState × Option SetPc)
  | .readTotreq => do
    match ← s.testAction with
    | some (_, a) =>
      if a.cmd ≠ .operWrite then return (s, none)
      match a.writeInp with
      | none => .error .wrongMember
      | some inp => return (s, some (.compare inp.writeTotreqCount))
    | none => return (s, none)
  | .compare totreq => do
    let (_, _, inp) ← s.derefWriteInp
    return (s, if totreq = inp.writeCmplCount then some .store else none)
  | .store => do
    let (id, a) ← s.derefAction
    return (s.setAction id { a with actionStatus := .actionComplete }, none)

/-- `sync_file_writes`. -/
def syncStep (s : PipelineState) : SyncPc → Except Fault (PipelineState × Option SyncPc)
  | .lockHandle =>
    let c := atomicCompareExchangeStrong s.handleToFileAction 0 1
    return ({ s with handleToFileAction := c.word }, some (if c.ok then .checkFile else .lockHandle))
  | .checkFile => do
    if ¬ s.slot then return (s, some .unlockHandle)
    s.derefRecord
    if s.status ≠ .fileOpen then return (s, some .unlockHandle)
    if ¬ s.file.oflag.has (O_RDWR ||| O_WRONLY) then return (s, some .unlockHandle)
    return (s, some .lockAction)
  | .lockAction => do
    s.derefRecord
    let c := atomicCompareExchangeStrong s.preventActionMutation 0 1
    return ({ s with preventActionMutation := c.word },
      some (if c.ok then .suspendWrites else .lockAction))
  | .suspendWrites => do
    s.derefRecord
    let c := atomicCompareExchangeStrong s.writeSuspended 0 1
    return ({ s with writeSuspended := c.word }, some (if c.ok then .testAction else .suspendWrites))
  | .testAction => do
    match ← s.testAction with
    | some (_, a) => return (s, some (if a.cmd ≠ .operWrite then .awaitComplete else .lowSync))
    | none => return (s, some .lowSync)
  | .awaitComplete => do
    let (_, a) ← s.derefAction
    return (s, some (if a.actionStatus ≠ .actionComplete then .awaitComplete else .lowSync))
  | .lowSync => do
    let (s, p) ← s.lowEfSync
    return (s, some (p.elim .fsync .lowSyncPush))
  | .lowSyncPush p => do
    let (s, p) ← s.pushStep p
    return (s, some (p.elim .fsync .lowSyncPush))
  | .fsync => do
    match ← s.testAction with
    | some (_, a) =>
      if a.cmd ≠ .operWrite ∨ a.actionStatus = .actionComplete then return (s, some .resumeWrites)
      match a.writeInp with
      | none => .error .wrongMember
      | some inp => return (s, some (.fsyncPush (.count ⟨.fileFsyncEvt, inp.wAccum⟩)))
    | none => return (s, some .resumeWrites)
  | .fsyncPush p => do
    let (s, p) ← s.pushStep p
    return (s, some (p.elim .resumeWrites .fsyncPush))
  | .resumeWrites => do
    s.derefRecord
    let c := atomicCompareExchangeStrong s.writeSuspended 1 0
    return ({ s with writeSuspended := c.word }, some .unlockAction)
  | .unlockAction => do
    s.derefRecord
    let c := atomicCompareExchangeStrong s.preventActionMutation 1 0
    return ({ s with preventActionMutation := c.word }, some .unlockHandle)
  | .unlockHandle =>
    let c := atomicCompareExchangeStrong s.handleToFileAction 1 0
    return ({ s with handleToFileAction := c.word }, none)

/-- `ef_file_close` with its call of `ef_close_status`. -/
def closeStep (closeFails : Bool) (s : PipelineState) :
    CloseJob → Except Fault (PipelineState × Option CloseJob)
  | .start => do
    match ← s.testAction with
    | none => return (s, none)
    | some (id, a) =>
      return ({ s.setAction id { a with actionStatus := .actionInProgress } with
        file := { s.file with buf := { s.file.buf with buffer := none } } },
        some (.publish (if closeFails then -1 else 0)))
  | .publish ret => do
    let (id, a) ← s.derefAction
    return ({ s.setAction id { a with returnValue := ret } with status := .fileNotOpen },
      some .complete)
  | .complete => do
    let (id, a) ← s.derefAction
    return (s.setAction id { a with actionStatus := .actionComplete }, some .closeStatus)
  | .closeStatus => do
    s.derefRecord
    if ¬ s.slot then return (s, none)
    match ← s.testAction with
    | none => return (s, none)
    | some (_, a) =>
      if a.cmd ≠ .operClose ∨ a.actionStatus ≠ .actionComplete ∨ a.returnValue = -100 then
        return (s, none)
      else if a.returnValue = -1 then return (s, some (.freeing (.acquire 0) .failed))
      else return (s, some .lockHandle)
  | .lockHandle =>
    let c := atomicCompareExchangeStrong s.handleToFileAction 0 1
    return ({ s with handleToFileAction := c.word }, some (if c.ok then .cleanup else .lockHandle))
  | .cleanup =>
    if ¬ s.slot then .error .nullDeref
    else do
      s.derefRecord
      return (s, some (if s.action = .null then .freeRecord else .freeing (.acquire 0) .cleanup))
  | .freeing p k => do
    let (s, p) ← s.freeStep p
    match p, k with
    | some p, k => return (s, some (.freeing p k))
    | none, .failed => return (s, none)
    | none, .cleanup => return (s, some .freeRecord)
  | .freeRecord => do
    s.derefRecord
    return ({ s with recordLive := false }, some .clearSlot)
  | .clearSlot => return ({ s with slot := false }, some .unlockHandle)
  | .unlockHandle =>
    let c := atomicCompareExchangeStrong s.handleToFileAction 1 0
    return ({ s with handleToFileAction := c.word }, none)

/-! ### The disk pool and `file_writer` -/

section Disk

variable (E : Env)

/-- `ef_file_write`, one item a step. -/
def writeJobStep (s : PipelineState) : WriteJob → Except Fault (PipelineState × Option WriteJob)
  | .queued => do
    let (id, a, inp) ← s.derefWriteInp
    return (s.setAction id { a with actionStatus := .actionInProgress },
      some (.items id inp.bWList 0))
  | .items id (w :: rest) bytes => do
    s.derefRecord
    let (file, n) ← execTask E s.file w
    return ({ s with file := file, executed := s.executed ++ [w] }, some (.items id rest (bytes + n)))
  | .items id [] bytes => return (s, some (.finish id bytes))
  | .finish id bytes => do
    let (id', a) ← s.derefAction
    return (s.setAction id' { a with
      returnValue := a.returnValue + bytes
      err := s.file.fd.errno }, some (.post id))
  | .post id =>
    return ({ s with fileWriterQueue := s.fileWriterQueue ++ [.fwWriteCmplEvt id] }, none)

/-- `ef_file_read`. -/
def readJobStep (s : PipelineState) : ReadJob → Except Fault (PipelineState × Option ReadJob)
  | .queued page => do
    let (id, a) ← s.derefAction
    return (s.setAction id { a with actionStatus := .actionInProgress }, some (.load page))
  | .load page => do
    s.derefRecord
    let file := if s.file.buf.buffer.isNone then s.file.allocBuffer E else s.file
    let (fd, ret, bytes) := file.fd.pread E E.pageSize (page * E.pageSize)
    let buffer := file.buf.buffer.map fun b => writeAt b 0 bytes
    return ({ s with file := { file with fd := fd, buf := { file.buf with buffer := buffer } } },
      some (.publish ret fd.errno))
  | .publish ret err => do
    let (id, a) ← s.derefAction
    return (s.setAction id { a with
      returnValue := ret
      err := err
      actionStatus := .actionComplete }, none)

/-- `file_writer`. It waits when it has no event. -/
def fileWriterStep (s : PipelineState) : Option (Except Fault PipelineState) :=
  match s.fileWriter with
  | .idle =>
    match s.fileWriterQueue with
    | [] => none
    | .fwWriteReqEvt id :: rest =>
      some (.ok { s with fileWriterQueue := rest, fileWriter := .reqTest id })
    | .fwWriteCmplEvt id :: rest =>
      some (.ok { s with fileWriterQueue := rest, fileWriter := .cmplCollect id })
  | .reqTest id => some do
    let (_, _, inp) ← s.derefWriteInp
    return { s with
      fileWriter :=
        if inp.writeReqCount ≠ inp.writeCmplCount then .idle else .drain id none false }
  | .cmplCollect id => some do
    let (id', a, inp) ← s.derefWriteInp
    return { s.setWriteInp id' a { inp with bWList := [] } with
      fileWriter := .drain id (some inp.bWList.length) false }
  | .drain id compl got => some do
    let (id', a, inp) ← s.derefWriteInp
    match inp.wQueue with
    | [] => return { s with fileWriter := if got then .fire id compl else afterDrain id compl }
    | w :: rest =>
      return { s.setWriteInp id' a { inp with
          wQueue := rest
          bWList := if got then inp.bWList ++ [w] else [w]
          writeReqCount := inp.writeReqCount + 1 } with
        fileWriter := .drain id compl true }
  | .fire id compl =>
    some (.ok { s with fileWrites := s.fileWrites ++ [.queued], fileWriter := afterDrain id compl })
  | .addCmpl _ compl => some do
    let (id', a, inp) ← s.derefWriteInp
    return { s.setWriteInp id' a { inp with writeCmplCount := inp.writeCmplCount + compl } with
      fileWriter := .idle }

end Disk

/-! ### `ef_read` -/

/-- A write item is being executed. -/
def writing (s : PipelineState) : Bool :=
  s.fileWrites.any fun j =>
    match j with
    | .items _ (w :: _) _ => w.cmd == .fileWriteEvt
    | _ => false

/-- What the foreground thread reads of the record: anything (`v`) while a
write item is being executed. -/
def see (s : PipelineState) (v : View) : View :=
  if s.writing then v
  else
    { fileOffset := s.file.fileOffset
      currFileSizeOnDisk := s.file.currFileSizeOnDisk
      bufferIndex := s.file.buf.bufferIndex }

/-- `ef_read` returns. -/
def finishRead (s : PipelineState) (nbyte : Nat) (ret : Int) (err : Option Errno)
    (bytes : List UInt8) : PipelineState :=
  { s with foreground := .idle, history := s.history ++ [.readReturned nbyte ret err bytes] }

section Foreground

variable (E : Env)

/-- `chk_read_conditions`: a result other than `1`, with `errno`. -/
def chkReadConditions (s : PipelineState) (v : View) (nbyte : Nat) :
    Except Fault (Option (Int × Option Errno)) := do
  if ¬ s.slot then return some (-1, some .einval)
  s.derefRecord
  if nbyte = 0 ∨ E.pageSize < nbyte then return some (-1, some .einval)
  if s.status ≠ .fileOpen then return some (-1, some .ebadf)
  if v.currFileSizeOnDisk ≤ v.fileOffset then return some (0, none)
  let flg := if s.file.oflag.has O_DIRECT then s.file.oflag ^^^ O_DIRECT else s.file.oflag
  if ¬ flg.has O_RDWR ∧ flg ≠ O_RDONLY then return some (-1, some .ebadf)
  return none

/-- The first dispatch of `low_ef_read` on the action, with
`ef_process_read_action_status`. -/
def readDispatch (s : PipelineState) (nbyte : Nat) (pageOffset : Int) :
    Except Fault PipelineState := do
  match ← s.testAction with
  | none => return { s with foreground := .readDrop nbyte pageOffset }
  | some (_, a) =>
    match a.cmd with
    | .operReadahead =>
      if a.actionStatus = .actionComplete then
        return { s with foreground := .freeing (.acquire 0) (.readDrop nbyte pageOffset) }
      else return s.finishRead nbyte (-1) (some .eagain) []
    | .operRead =>
      if a.actionStatus ≠ .actionComplete ∨ a.returnValue = -100 then
        return s.finishRead nbyte (-1) (some .eagain) []
      else if a.returnValue = -1 then
        return { s with foreground := .freeing (.acquire 0) (.readDone nbyte (-1) a.err) }
      else if a.returnValue = 0 then
        return { s with foreground := .freeing (.acquire 0) (.readDone nbyte 0 none) }
      else return { s with foreground := .freeing (.acquire 0) (.readDrop nbyte pageOffset) }
    | .operWrite => return { s with foreground := .syncing .lockHandle (.read nbyte pageOffset) }
    | .operOpen | .operClose =>
      if a.actionStatus ≠ .actionComplete then return s.finishRead nbyte (-1) (some .ebusy) []
      else return { s with foreground := .readDrop nbyte pageOffset }

/-- The end of `low_ef_read`, from the page buffer `b`: the file, the
result, `errno` and the bytes copied to the caller. -/
def readTransfer (f : EfFile) (b : List UInt8) (nbyte : Nat) (pageOffset : Int) :
    Except Fault (EfFile × Int × Option Errno × List UInt8) :=
  if pageOffset = E.pageSize then .ok (f, -1, some .ebadf, [])
  else if pageOffset < 0 ∨ E.pageSize < pageOffset then .error .outOfBounds
  else
    let po := pageOffset.toNat
    let size := if nbyte ≤ E.pageSize - po then nbyte else E.pageSize - po
    if f.currFileSizeOnDisk < f.fileOffset then .error .outOfBounds
    else
      let size :=
        if f.fileOffset + size > f.currFileSizeOnDisk then
          size - (f.fileOffset + size - f.currFileSizeOnDisk)
        else size
      let bytes := (b.drop po).take size
      let f := { f with fileOffset := f.fileOffset + size }
      if po + size = E.pageSize then
        .ok ({ f with buf := { f.buf with bufferIndex := f.buf.bufferIndex + 1, buffer := none } },
          size, none, bytes)
      else if po + size > E.pageSize then .error (.evAbort "Should have never reached here\n")
      else .ok (f, size, none, bytes)

/-- The steps of `low_ef_read` after the flush. -/
def readStep (s : PipelineState) (v : View) : ForegroundPc → Except Fault PipelineState
  | .readSnapshot nbyte => do
    s.derefRecord
    let v := s.see v
    s.readDispatch nbyte (v.fileOffset - v.bufferIndex * E.pageSize)
  | .readTest nbyte pageOffset => do
    let (_, a) ← s.derefAction
    if a.actionStatus ≠ .actionComplete then return s.finishRead nbyte (-1) (some .ebusy) []
    else return { s with foreground := .readDrop nbyte pageOffset }
  | .readDrop nbyte pageOffset => do
    match ← s.testAction with
    | some (_, a) =>
      if a.actionStatus = .actionComplete then
        return { s with foreground := .freeing (.acquire 0) (.readBuffer nbyte pageOffset) }
      else return { s with foreground := .readBuffer nbyte pageOffset }
    | none => return { s with foreground := .readBuffer nbyte pageOffset }
  | .readBuffer nbyte pageOffset => do
    s.derefRecord
    match s.file.buf.buffer with
    | none =>
      match ← s.testAction with
      | some _ => return s.finishRead nbyte (-1) (some .eagain) []
      | none => return { s with foreground := .readFire nbyte }
    | some b =>
      let (file, ret, err, bytes) ← readTransfer E s.file b nbyte pageOffset
      return { s with file := file }.finishRead nbyte ret err bytes
  | .readFire nbyte => do
    s.derefRecord
    if s.file.buf.bufferIndex * E.pageSize ≠ s.file.fileOffset then .error (.evAbort "")
    else if s.action ≠ .null then .error (.evAbort "THIS CAN NEVER HAPPEN \n")
    else return { s with foreground := .allocating (.acquire 0) .operRead (.read nbyte) }
  | .readEnqueue nbyte => do
    s.derefRecord
    return { s with fileReads := s.fileReads ++ [ReadJob.queued s.file.buf.bufferIndex] }.finishRead
      nbyte (-1) (some .eagain) []
  | _ => return s

/-! ### `ef_write`, `ef_sync` and `ef_close_api` -/

/-- The steps of `low_ef_write`. -/
def writeStep (s : PipelineState) : ForegroundPc → Except Fault PipelineState
  | .writeSuspend buf => do
    s.derefRecord
    let c := atomicCompareExchangeStrong s.writeSuspended 0 (-1)
    return { s with
      writeSuspended := c.word
      foreground := if c.ok then .writeTest buf else .writeSuspend buf }
  | .writeTest buf => do
    match ← s.testAction with
    | some (_, a) =>
      if a.actionStatus = .actionComplete then
        return { s with foreground := .freeing (.acquire 0) (.write buf) }
      else if a.cmd ≠ .operWrite then return { s with foreground := .writeResume }
      else return { s with foreground := .writeEnsure buf }
    | none => return { s with foreground := .writeEnsure buf }
  | .writeEnsure buf => do
    s.derefRecord
    return { s with
      history := s.history ++ [.accepted buf]
      foreground :=
        if s.action = .null then .allocating (.acquire 0) .operWrite (.write buf)
        else .writeLoop buf 0 }
  | .writeLoop buf done => do
    if buf.length ≤ done then return { s with foreground := .writeResume }
    let (id, a, inp) ← s.derefWriteInp
    let n := min (buf.length - done) (E.pageSize - inp.wAccum.length)
    let accum := inp.wAccum ++ (buf.drop done).take n
    -- `bytes_transfered` is an `int` and would be negative.
    if 2 ^ 31 ≤ done then .error .outOfBounds
    else if E.pageSize ≤ accum.length then
      return { s.setWriteInp id a { inp with wAccum := [] } with
        foreground := .pushing (.count ⟨.fileWriteEvt, accum⟩) (.write buf (done + n)) }
    else
      return { s.setWriteInp id a { inp with wAccum := accum } with
        foreground := .writeLoop buf (done + n) }
  | .writeResume => do
    s.derefRecord
    let c := atomicCompareExchangeStrong s.writeSuspended (-1) 0
    if ¬ c.ok then .error (.evAbort "This is an impossible condition")
    else return { s with writeSuspended := c.word, foreground := .idle }
  | _ => return s

/-- The steps of `ef_sync`. -/
def efSyncStep (s : PipelineState) : ForegroundPc → Except Fault PipelineState
  | .syncSuspend => do
    s.derefRecord
    let c := atomicCompareExchangeStrong s.writeSuspended 0 (-2)
    return { s with
      writeSuspended := c.word
      foreground := if c.ok then .syncFlush else .syncSuspend }
  | .syncFlush => do
    let (s, p) ← s.lowEfSync
    return { s with foreground := p.elim .syncResume (.pushing · .sync) }
  | .syncResume => do
    s.derefRecord
    let c := atomicCompareExchangeStrong s.writeSuspended (-2) 0
    if ¬ c.ok then .error (.evAbort "This is an impossible condition")
    else return { s with writeSuspended := c.word, foreground := .idle }
  | _ => return s

/-- The steps of `ef_close_api` after the flush. -/
def efCloseStep (closeFails : Bool) (s : PipelineState) :
    ForegroundPc → Except Fault PipelineState
  | .closeTest immediate => do
    match ← s.testAction with
    | some (_, a) =>
      return { s with
        foreground :=
          if a.actionStatus ≠ .actionComplete then .setting .readTotreq (.close immediate)
          else .closeDrop immediate }
    | none => return { s with foreground := .closeDrop immediate }
  | .closeDrop immediate => do
    s.derefRecord
    return { s with
      foreground :=
        if s.action = .null then .allocating (.acquire 0) .operClose (.close immediate)
        else .freeing (.acquire 0) (.closeAlloc immediate) }
  | .closeDispatch immediate =>
    if immediate then return { s with foreground := .closing .start }
    else return { s with fileCloses := s.fileCloses ++ [.start], foreground := .idle }
  | .closing p => do
    let (s, p) ← s.closeStep closeFails p
    return { s with foreground := p.elim .idle .closing }
  | _ => return s

/-! ### The foreground thread -/

/-- The foreground thread after `free_file_action`. -/
def afterFree (s : PipelineState) : AfterFree → PipelineState
  | .write buf => { s with foreground := .writeEnsure buf }
  | .sync => { s with foreground := .idle }
  | .readDone nbyte ret err => s.finishRead nbyte ret err []
  | .readDrop nbyte pageOffset => { s with foreground := .readDrop nbyte pageOffset }
  | .readBuffer nbyte pageOffset => { s with foreground := .readBuffer nbyte pageOffset }
  | .closeSync immediate => { s with foreground := .syncing .lockHandle (.close immediate) }
  | .closeAlloc immediate =>
    { s with foreground := .allocating (.acquire 0) .operClose (.close immediate) }

/-- The foreground thread after `alloc_file_action`. -/
def afterAlloc : AfterAlloc → ForegroundPc
  | .write buf => .writeLoop buf 0
  | .read nbyte => .readEnqueue nbyte
  | .close immediate => .closeDispatch immediate

/-- The foreground thread after a push. -/
def afterPush : AfterPush → ForegroundPc
  | .write buf done => .writeLoop buf done
  | .sync => .syncResume

/-- The foreground thread after `SET_WRITE_ACTION_STATUS`. -/
def afterSet : AfterSync → ForegroundPc
  | .read nbyte pageOffset => .readTest nbyte pageOffset
  | .close immediate => .closeTest immediate

/-- The next step of the foreground thread inside a call. -/
def foregroundStep (closeFails : Bool) (s : PipelineState) (v : View) : Except Fault PipelineState :=
  match s.foreground with
  | .idle => .ok s
  | .pushing p k => do
    let (s, p) ← s.pushStep p
    return { s with foreground := p.elim (afterPush k) (.pushing · k) }
  | .freeing p k => do
    let (s, p) ← s.freeStep p
    match p with
    | some p => return { s with foreground := .freeing p k }
    | none => return s.afterFree k
  | .allocating p oper k => do
    let (s, p) ← s.allocStep oper p
    return { s with foreground := p.elim (afterAlloc k) (.allocating · oper k) }
  | .setting p k => do
    let (s, p) ← s.setStep p
    return { s with foreground := p.elim (afterSet k) (.setting · k) }
  | .syncing p k => do
    let (s, p) ← s.syncStep p
    return { s with foreground := p.elim (.setting .readTotreq k) (.syncing · k) }
  | .writeSuspend buf => s.writeStep E (.writeSuspend buf)
  | .writeTest buf => s.writeStep E (.writeTest buf)
  | .writeEnsure buf => s.writeStep E (.writeEnsure buf)
  | .writeLoop buf done => s.writeStep E (.writeLoop buf done)
  | .writeResume => s.writeStep E .writeResume
  | .syncSuspend => s.efSyncStep .syncSuspend
  | .syncFlush => s.efSyncStep .syncFlush
  | .syncResume => s.efSyncStep .syncResume
  | .closeTest immediate => s.efCloseStep closeFails (.closeTest immediate)
  | .closeDrop immediate => s.efCloseStep closeFails (.closeDrop immediate)
  | .closeDispatch immediate => s.efCloseStep closeFails (.closeDispatch immediate)
  | .closing p => s.efCloseStep closeFails (.closing p)
  | pc => s.readStep E v pc

/-- The start of a call, up to its first wait. -/
def callStep (s : PipelineState) (v : View) : Call → Except Fault PipelineState
  | .efWrite buf => do
    if ¬ s.slot ∨ buf = [] then return s
    s.derefRecord
    if s.status ≠ .fileOpen ∨ ¬ s.file.oflag.has (O_RDWR ||| O_WRONLY) then return s
    return { s with foreground := .writeSuspend buf }
  | .efSync => do
    if ¬ s.slot then return s
    s.derefRecord
    if s.status ≠ .fileOpen then return s
    match ← s.testAction with
    | none => return s
    | some (_, a) =>
      if a.actionStatus = .actionComplete then
        return { s with foreground := .freeing (.acquire 0) .sync }
      else if a.cmd ≠ .operWrite then return s
      else return { s with foreground := .syncSuspend }
  | .efRead nbyte => do
    match ← s.chkReadConditions E (s.see v) nbyte with
    | some (ret, err) => return s.finishRead nbyte ret err []
    | none => return { s with foreground := .readSnapshot nbyte }
  | .efClose immediate => do
    if ¬ s.slot then return s
    s.derefRecord
    if s.status ≠ .fileOpen then return s
    match ← s.testAction with
    | none => return { s with foreground := .syncing .lockHandle (.close immediate) }
    | some (_, a) =>
      if a.cmd = .operClose then return s
      else if a.cmd ≠ .operWrite ∧ a.actionStatus ≠ .actionComplete then return s
      else if a.actionStatus = .actionComplete then
        return { s with foreground := .freeing (.acquire 0) (.closeSync immediate) }
      else return { s with foreground := .syncing .lockHandle (.close immediate) }

end Foreground

/-! ### The whole system -/

/-- The job at place `i` moves, and leaves its list when it is done. -/
def jobStep {J : Type} (jobs : List J) (i : Nat)
    (stepJob : J → Except Fault (PipelineState × Option J))
    (put : PipelineState → List J → PipelineState) : Option (Except Fault PipelineState) :=
  (jobs[i]?).map fun j => do
    let (s, next) ← stepJob j
    return put s (next.elim (jobs.eraseIdx i) (jobs.set i))

/-- The step of `slow_sync` on this file. -/
def slowSyncStep (s : PipelineState) : Option (Except Fault PipelineState) :=
  match s.slowSync with
  | none => if s.slot then some (.ok { s with slowSync := some .lockHandle }) else none
  | some p => some do
    let (s, p) ← s.syncStep p
    return { s with slowSync := p }

/-- The step with label `l`, or its fault. -/
def threadStep (E : Env) (l : PipelineLabel) (s : PipelineState) :
    Option (Except Fault PipelineState) :=
  match l with
  | .call c v => if s.foreground = .idle then some (s.callStep E v c) else none
  | .foreground v closeFails =>
    if s.foreground = .idle then none else some (s.foregroundStep E closeFails v)
  | .slowSync => s.slowSyncStep
  | .fileWriter => s.fileWriterStep
  | .writeJob i => jobStep s.fileWrites i (s.writeJobStep E) fun s js => { s with fileWrites := js }
  | .readJob i => jobStep s.fileReads i (s.readJobStep E) fun s js => { s with fileReads := js }
  | .closeJob i closeFails =>
    jobStep s.fileCloses i (s.closeStep closeFails) fun s js => { s with fileCloses := js }

/-- The steps of the system. A fault ends the run. -/
def step (E : Env) (l : PipelineLabel) (s : PipelineState) : Option PipelineState :=
  if s.fault.isSome then none
  else
    (s.threadStep E l).map fun r =>
      match r with
      | .ok s' => s'
      | .error e => { s with fault := some e }

/-- The file `f` after `ef_open_status`. When the status has not been
collected, the open action is still there. -/
def opened (f : EfFile) (collected : Bool) : PipelineState :=
  { file := f
    recordLive := true
    slot := true
    status := .fileOpen
    action :=
      if collected then .null
      else .live 0 { eioCmdInit .operOpen with actionStatus := .actionComplete, returnValue := 0 }
    preventActionMutation := 0
    writeSuspended := 0
    handleToFileAction := 0
    nextId := 1
    fileWriterQueue := []
    fileWrites := []
    fileReads := []
    fileCloses := []
    foreground := .idle
    slowSync := none
    fileWriter := .idle
    pushed := []
    executed := []
    history := []
    fault := none }

end PipelineState

end Efio.Evio
