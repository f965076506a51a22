import Efio.Evio.Pipeline

/-!
# `Efio.Evio.Readiness`: the queries `ef_file_ready_for_read` and `ef_poll`

Both look at the record and at the action, and change nothing. They run on
the foreground thread, so they see the file offsets as `ef_read` does
(`View`).
-/

set_option autoImplicit false

namespace Efio.Evio

namespace PipelineState

/-- `chk_fd_read_conditions`, with `errno` for a failed check. -/
def chkFdReadConditions (s : PipelineState) (v : View) : Except Fault (Int × Option Errno) := do
  if ¬ s.slot then return (-1, some .einval)
  s.derefRecord
  if s.status ≠ .fileOpen then return (-1, some .ebadf)
  -- "End of file has been reached."
  if v.currFileSizeOnDisk ≤ v.fileOffset then return (0, none)
  let flg := if s.file.oflag.has O_DIRECT then s.file.oflag ^^^ O_DIRECT else s.file.oflag
  if ¬ flg.has O_RDWR ∧ flg ≠ O_RDONLY then return (-1, some .ebadf)
  return (1, none)

/-- `ef_analyse_readahead_action_status` on an action `oper_readahead`. -/
def efAnalyseReadaheadActionStatus (a : FileCmd) : Int × Option Errno :=
  if a.actionStatus = .actionComplete then (1, none) else (-1, some .eagain)

/-- `ef_analyse_read_action_status` on an action `oper_read`. -/
def efAnalyseReadActionStatus (a : FileCmd) : Int × Option Errno :=
  if a.actionStatus = .actionComplete then
    if a.returnValue = -1 then (-1, a.err)
    else if a.returnValue = -100 then (-1, some .eagain)
    else (a.returnValue, none)
  else (-1, some .eagain)

/-- `ef_file_ready_for_read`. The result `0` of the check is not looked at. -/
def efFileReadyForRead (s : PipelineState) (v : View) : Except Fault (Int × Option Errno) := do
  let (ret, err) ← s.chkFdReadConditions (s.see v)
  if ret < 0 then return (ret, err)
  match ← s.testAction with
  | some (_, a) =>
    match a.cmd with
    | .operReadahead => return efAnalyseReadaheadActionStatus a
    | .operRead => return efAnalyseReadActionStatus a
    | .operOpen | .operWrite | .operClose => return (-1, some .ebusy)
  | none => return (-1, some .einval)

/-- `ef_poll` -/
def efPoll (s : PipelineState) : Except Fault (BitVec 32) := do
  if ¬ s.slot then return -1
  s.derefRecord
  if s.status ≠ .fileOpen then return -1
  let ret : BitVec 32 := if s.file.oflag.has (O_WRONLY ||| O_RDWR) then 0 ||| 1 else 0
  if (s.file.oflag = O_RDONLY ∨ s.file.oflag.has O_RDWR) ∧ s.file.buf.buffer.isSome then
    return ret ||| 2
  else return ret

end PipelineState

end Efio.Evio
