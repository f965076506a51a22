import Efio.Evds.PQueue
import Efio.Evio.Internals
import Efio.Lib.Bytes
import Efio.Lib.Calls

/-!
# `Efio.Evio.WriteCall`: `low_ef_write` with its counts

`low_ef_write` copies the data into the accumulator page and pushes each
page that is full; `low_ef_sync` pushes one that is not. Here both are
functions on the action and the tasks pushed so far, with the page and the
counts as the source has them: `_bytes` and the other lengths are of type
`size_t`, `bytes_transfered` is an `int` and wraps.

A call holds `_write_suspended`, and so nobody flushes during it.
-/

set_option autoImplicit false

namespace Efio.Evio

open Efio.Lib
open Efio.Evds (atomicInt)

/-- `struct accum_writes_s`. `data` is the page at `_data`. -/
structure AccumWrites where
  data : Option (List UInt8)
  bytes : Nat
  deriving DecidableEq, Repr

/-- A task as `write_buffer_sync` fills it in. `buf` is the page at `_buf`. -/
structure PageTask where
  buf : Option (List UInt8)
  nbyte : Nat
  deriving DecidableEq, Repr

/-- The action, as far as these calls use it. `wAccum` is
`_inp._write_inp._w_accum` while that is the member of the union in use. -/
structure WriterAction where
  cmd : FileOper
  actionStatus : ActionStatus
  wAccum : Option AccumWrites
  deriving DecidableEq, Repr

/-- A file that is written. `wQueue` has all tasks that were pushed. -/
structure Writer where
  action : Option WriterAction
  wQueue : List PageTask
  deriving DecidableEq, Repr

/-- The locals of the loop of `low_ef_write`, and the file. -/
structure Accumulation where
  file : Writer
  bytesTransfered : Int
  remainingBytes : Nat
  deriving DecidableEq, Repr

/-- `eio_write_oper_init` on the accumulator, and what `write_buffer_sync`
leaves of it. -/
def AccumWrites.init : AccumWrites := { data := none, bytes := 0 }

/-- `eio_cmd_init` for `oper_write`. -/
def WriterAction.init : WriterAction :=
  { cmd := .operWrite
    actionStatus := .actionInitiated
    wAccum := some .init }

/-- An access to `file_ptr->_action->_inp._write_inp._w_accum`. -/
def Writer.derefAccum (s : Writer) : Except Fault (WriterAction × AccumWrites) :=
  match s.action with
  | none => .error .nullDeref
  | some a =>
    match a.wAccum with
    | none => .error .wrongMember
    | some d => .ok (a, d)

/-- `write_buffer_sync`. `low_eio_cmd_init` sets the command and the status. -/
def Writer.writeBufferSync (s : Writer) : Except Fault Writer := do
  let (_, d) ← s.derefAccum
  return { action := some .init, wQueue := s.wQueue ++ [⟨d.data, d.bytes⟩] }

section Loop

variable (pageSize : Nat) (buf : List UInt8)

/-- The accumulator page, allocated and zeroed if there is none. -/
def AccumWrites.page (d : AccumWrites) : List UInt8 := d.data.getD (List.replicate pageSize 0)

/-- The end of a pass: a full page is pushed. -/
def Writer.pushFull (d : AccumWrites) (s : Writer) : Except Fault Writer :=
  if d.bytes ≥ pageSize then s.writeBufferSync else .ok s

/-- One pass of the loop. -/
def accumulate (c : Accumulation) : Except Fault Accumulation := do
  let (a, d) ← c.file.derefAccum
  let page := d.page pageSize
  let toBeCopied := min c.remainingBytes (pageSize - d.bytes)
  -- `memcpy` from `buf + bytes_transfered` to `_data + _bytes`
  if c.bytesTransfered < 0 ∨ buf.length < c.bytesTransfered + toBeCopied ∨
      page.length < d.bytes + toBeCopied then
    .error .outOfBounds
  else
    let chunk := (buf.drop c.bytesTransfered.toNat).take toBeCopied
    let d := { data := some (writeAt page d.bytes chunk), bytes := d.bytes + toBeCopied : AccumWrites }
    let s ← Writer.pushFull pageSize d { c.file with action := some { a with wAccum := some d } }
    return {
      file := s
      bytesTransfered := atomicInt (c.bytesTransfered + toBeCopied)
      remainingBytes := c.remainingBytes - toBeCopied }

/-- `while (remaining_bytes > 0)`, for at most `fuel` passes. -/
def accumulateLoop : Nat → Accumulation → Except Fault Accumulation
  | 0, c => if c.remainingBytes = 0 then .ok c else .error .diverge
  | fuel + 1, c =>
    if c.remainingBytes = 0 then .ok c
    else do accumulateLoop fuel (← accumulate pageSize buf c)

/-- The action of `low_ef_write`: a complete one is freed, and when there
is none, one is allocated. -/
def Writer.ensureAction (s : Writer) : WriterAction :=
  match s.action with
  | none => .init
  | some a => if a.actionStatus = .actionComplete then .init else a

/-- `low_ef_write`. Every pass of the loop copies a byte, so `nbyte` passes
are enough. -/
def Writer.lowEfWrite (s : Writer) : Except Fault (Writer × Int) :=
  if s.ensureAction.cmd ≠ .operWrite then .ok (s, -1)
  else do
    let c ← accumulateLoop pageSize buf buf.length
      { file := { s with action := some s.ensureAction }
        bytesTransfered := 0
        remainingBytes := buf.length }
    return (c.file, c.bytesTransfered)

end Loop

/-- `low_ef_sync` -/
def Writer.lowEfSync (s : Writer) : Except Fault Writer :=
  match s.action with
  | none => .ok s
  | some a =>
    if a.cmd ≠ .operWrite then .ok s
    else do
      let (_, d) ← s.derefAccum
      if d.bytes = 0 then .ok s else s.writeBufferSync

/-- The calls. -/
inductive WriterOp where
  | lowEfWrite (buf : List UInt8)
  | lowEfSync
  deriving DecidableEq, Repr

/-- A call with its result; `low_ef_sync` has none. -/
def WriterOp.call (pageSize : Nat) : WriterOp → Writer → Except Fault (Writer × Option Int)
  | .lowEfWrite buf, s => do
    let (s, ret) ← s.lowEfWrite pageSize buf
    return (s, some ret)
  | .lowEfSync, s => do return (← s.lowEfSync, none)

/-- A file before its first `ef_write`. An action of another call that has
completed may still be there; one of `oper_write` has pushed all its data. -/
def Writer.opened (completed : Option FileOper) : Writer :=
  { action := completed.map fun oper =>
      { cmd := oper
        actionStatus := .actionComplete
        wAccum := if oper = .operWrite then some .init else none }
    wQueue := [] }

end Efio.Evio
