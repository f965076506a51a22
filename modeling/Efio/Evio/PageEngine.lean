import Efio.Evio.Open

/-!
# `Efio.Evio.PageEngine`: the write side of the page buffer

`ef_one_single_write`, `ef_file_fsync` and the two copies between page
buffer and disk, as a disk worker runs them from `ef_file_write`. One
pass of the transfer loop is `transferStep`, on a `Cursor` that holds the
loop's locals.
-/

set_option autoImplicit false

namespace Efio.Evio

open Efio.Lib

variable (E : Env)

namespace EfFile

variable (f : EfFile)

/-- `posix_memalign` of a page at `_buf._buffer`. -/
def allocBuffer : EfFile :=
  { f with
    buf := { f.buf with buffer := some (E.freshPage f.fd.pages) }
    fd := { f.fd with pages := f.fd.pages + 1 } }

/-- The `pread` of `sync_buf_from_file` into the page memory `b`. -/
def loadPage (b : List UInt8) : Except Fault EfFile :=
  let (fd, ret, bytes) := f.fd.clearErrno.pread E E.pageSize (f.buf.bufferIndex * E.pageSize)
  if ret = -1 then .error (.evAbort "Cannot handle this error")
  else .ok { f with fd := fd, buf := { f.buf with buffer := some (writeAt b 0 bytes) } }

end EfFile

/-- `sync_buf_from_file`. A `NULL` buffer is allocated first, so the last
branch of the inner `match` is not taken. -/
def syncBufFromFile (f : EfFile) : Except Fault EfFile :=
  let f := if f.buf.buffer.isNone then f.allocBuffer E else f
  let f := { f with buf := { f.buf with isDirty := false } }
  if f.buf.bufferIndex * E.pageSize < f.currFileSizeOnDisk then
    if f.oflag = O_RDONLY ∨ f.oflag.has O_RDWR then
      match f.buf.buffer with
      | some b => f.loadPage E b
      | none => .error .nullDeref
    else .ok f
  else .ok f

/-- `sync_buf_to_file`. The result of `pwrite` is looked at and ignored;
from a `NULL` buffer it fails with `EFAULT`. -/
def syncBufToFile (f : EfFile) : Except Fault EfFile :=
  if f.buf.isDirty then
    let fd := match f.buf.buffer with
      | some b => (f.fd.clearErrno.pwrite E b (f.buf.bufferIndex * E.pageSize)).1
      | none => { f.fd with errno := some .efault }
    let (fd, ret) := fd.ftruncate E f.runningFileSize
    if ret ≠ 0 then .error (.evAbort "ftruncate call failed")
    else .ok { f with fd := fd, buf := { f.buf with isDirty := false } }
  else .ok f

/-! ### `ef_one_single_write` -/

/-- The locals of `ef_one_single_write` and the file it works on. -/
structure Cursor where
  file : EfFile
  pageOffset : Nat
  remainingBytes : Nat
  wbPos : Nat
  bytesTransfered : Nat
  deriving DecidableEq, Repr

/-- The start of `ef_one_single_write`: a clean append file moves to the
end of the disk file, and drops the buffer of another page. -/
def appendPosition (f : EfFile) : Except Fault EfFile :=
  if ¬ f.oflag.has O_APPEND then .ok f
  else if f.buf.isDirty = false then
    let offset := f.fd.lseekEnd
    let index := offset / E.pageSize
    .ok { f with
      fileOffset := offset
      buf := { f.buf with
        bufferIndex := index
        buffer := if f.buf.bufferIndex ≠ index then none else f.buf.buffer } }
  else if f.buf.bufferIndex ≠ f.currFileSizeOnDisk / E.pageSize then
    .error (.evAbort "This situation must not arise")
  else .ok f

/-- The cursor after `n` bytes of the task went into `file`. -/
def Cursor.advance (c : Cursor) (file : EfFile) (n : Nat) : Cursor :=
  { file := file
    pageOffset := c.pageOffset + n
    remainingBytes := c.remainingBytes - n
    wbPos := c.wbPos + n
    bytesTransfered := c.bytesTransfered + n }

/-- The cursor at the start of the page that `file` has turned to. -/
def Cursor.atPageStart (c : Cursor) (file : EfFile) : Cursor :=
  { c with file := file, pageOffset := 0 }

/-- A direct write has reached a page end: from here on the page buffer is
used. -/
def leaveUnaligned (f : EfFile) : Except Fault EfFile :=
  syncBufFromFile E { f with
    fd := { f.fd with direct := true }
    blockWriteUnaligned := false
    buf := { f.buf with isDirty := false, bufferIndex := f.buf.bufferIndex + 1 } }

/-- The branch of the loop for `_block_write_unaligned`: `n` bytes of the
task go to the file directly. `pwrite` takes them from `w_t->_buf`, not
from `w_t->_buf+wb_pos`. -/
def unalignedTransfer (w : WriteTask) (c : Cursor) (n : Nat) : Except Fault Cursor :=
  let f := c.file
  if ¬ f.oflag.has (O_APPEND ||| O_WRONLY) then
    .error (.evAbort "File not opened in Write only and Append mode, no need for unaligned write")
  else
    let (fd, ret) := f.fd.clearErrno.pwrite E (w.buf.take n) f.currFileSizeOnDisk
    if ret = -1 then .error (.evAbort "Cannot handle this error")
    else
      let c := c.advance { f with
        fd := fd
        fileOffset := f.fileOffset + n
        currFileSizeOnDisk := f.currFileSizeOnDisk + n
        runningFileSize := f.runningFileSize + n } n
      if c.pageOffset = E.pageSize then (leaveUnaligned E c.file).map c.atPageStart
      else .ok c

/-- `_running_file_size` after `n` bytes at the offset: it grows only when
the offset lies in the last page. -/
def grownSize (f : EfFile) (n : Nat) : Nat :=
  if f.fileOffset / E.pageSize = f.runningFileSize / E.pageSize then
    if f.fileOffset + n > f.runningFileSize then
      f.runningFileSize + (f.fileOffset + n - f.runningFileSize)
    else f.runningFileSize
  else f.runningFileSize

/-- `n` bytes at the offset are now in the page memory `page`. -/
def dirtied (f : EfFile) (page : List UInt8) (n : Nat) : EfFile :=
  { f with
    buf := { f.buf with isDirty := true, buffer := some page }
    runningFileSize := grownSize E f n
    fileOffset := f.fileOffset + n }

/-- The step to the next page in buffered mode. -/
def nextPage (f : EfFile) : Except Fault EfFile :=
  let index := f.buf.bufferIndex + 1
  syncBufFromFile E { f with
    currFileSizeOnDisk :=
      if index * E.pageSize > f.currFileSizeOnDisk then index * E.pageSize
      else f.currFileSizeOnDisk
    buf := { f.buf with bufferIndex := index, isDirty := false } }

/-- The branch of the loop that goes through the page buffer. A full page
goes to the disk, and the buffer takes in the next one. -/
def bufferedTransfer (w : WriteTask) (c : Cursor) (n : Nat) : Except Fault Cursor :=
  match c.file.buf.buffer with
  | none => .error .nullDeref
  | some b =>
    let page := writeAt b c.pageOffset ((w.buf.drop c.wbPos).take n)
    let c := c.advance (dirtied E c.file page n) n
    if c.pageOffset = E.pageSize then do
      let f ← syncBufToFile E c.file
      (nextPage E f).map c.atPageStart
    else if c.pageOffset > E.pageSize then
      .error (.evAbort "Should have never reached here")
    else .ok c

/-- The test at the head of the loop: a clean file without a buffer gets
one. -/
def ensureBuffer (f : EfFile) : Except Fault EfFile :=
  if f.buf.buffer = none ∧ f.buf.isDirty = false then syncBufFromFile E f else .ok f

/-- One pass of the loop of `ef_one_single_write`. -/
def transferStep (w : WriteTask) (c : Cursor) : Except Fault Cursor := do
  let f ← ensureBuffer E c.file
  let c := { c with file := f }
  let n := min c.remainingBytes (E.pageSize - c.pageOffset)
  if f.blockWriteUnaligned then unalignedTransfer E w c n else bufferedTransfer E w c n

/-- `while (remaining_bytes)`, for at most `fuel` passes. -/
def transferLoop (w : WriteTask) : Nat → Cursor → Except Fault Cursor
  | 0, c => if c.remainingBytes = 0 then .ok c else .error .diverge
  | fuel + 1, c =>
    if c.remainingBytes = 0 then .ok c
    else do transferLoop w fuel (← transferStep E w c)

/-- `ef_one_single_write`: the file and the number of bytes transferred.
Every pass of the loop moves a byte, so `_nbyte` passes are enough. -/
def efOneSingleWrite (f : EfFile) (w : WriteTask) : Except Fault (EfFile × Nat) := do
  let f ← appendPosition E f
  let c ← transferLoop E w w.nbyte
    { file := f
      pageOffset := f.fileOffset - f.buf.bufferIndex * E.pageSize
      remainingBytes := w.nbyte
      wbPos := 0
      bytesTransfered := 0 }
  return (c.file, c.bytesTransfered)

/-! ### `ef_file_fsync` and `ef_file_write` -/

/-- `ef_file_fsync`. -/
def efFileFsync (f : EfFile) : Except Fault EfFile := do
  let f ← syncBufToFile E f
  let f := { f with currFileSizeOnDisk := f.runningFileSize }
  if f.fileOffset - f.buf.bufferIndex * E.pageSize = E.pageSize then
    return { f with buf := { f.buf with buffer := none, bufferIndex := f.buf.bufferIndex + 1 } }
  else if f.oflag.has O_APPEND then
    return { f with fd := { f.fd with direct := false }, blockWriteUnaligned := true }
  else return f

/-- One pass of the loop of `ef_file_write`: `errno` is cleared and the
task `w` executed. The result is the number of bytes transferred. -/
def execTask (f : EfFile) (w : WriteTask) : Except Fault (EfFile × Nat) :=
  let f := { f with fd := f.fd.clearErrno }
  match w.cmd with
  | .fileWriteEvt => efOneSingleWrite E f w
  | .fileFsyncEvt => do return (← efFileFsync E f, 0)

/-- The loop of `ef_file_write` over the batch `wList`: the file and the
sum it adds to `_return_value`. -/
def efFileWrite (f : EfFile) (wList : List WriteTask) : Except Fault (EfFile × Nat) :=
  wList.foldlM (fun acc w => do
    let (f, n) ← execTask E acc.1 w
    return (f, acc.2 + n)) (f, 0)

end Efio.Evio
