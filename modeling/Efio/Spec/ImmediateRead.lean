import Efio.Evio.Readiness
import Efio.Lib.Transition

/-!
# `Efio.Spec.ImmediateRead`: a call of `ef_read` with no other step in between

In `Alone v` only the foreground thread moves, and it sees `v` of a record
that a write item is being executed on. `ReadReturns` is a call of
`ef_read` in which this is so from its start to its return.

`Deliverable` says of a state that such a call delivers data: the position
is in the page buffer, and the call gets past the action.
-/

set_option autoImplicit false

namespace Efio.Spec

open Efio.Lib
open Efio.Evio
open Efio.Evio.PipelineState

/-- The access mode bits (`O_ACCMODE`). -/
def accessMode (oflag : OFlag) : OFlag := oflag &&& 3

/-- An open file between two calls. -/
structure OpenIdle (s : PipelineState) : Prop where
  slot : s.slot = true
  live : s.recordLive = true
  status : s.status = .fileOpen
  running : s.fault = none
  idle : s.foreground = .idle

/-- Only the foreground thread moves. -/
def Alone (v : View) (_ : PipelineState) (l : PipelineLabel) : Prop := l = .foreground v false

/-- `ef_read` is called in `s` and returns in `s'`. -/
def ReadReturns (E : Env) (v : View) (nbyte : Nat) (s s' : PipelineState) (ret : Int)
    (err : Option Errno) : Prop :=
  ∃ s₁ bytes, step E (.call (.efRead nbyte) v) s = some s₁ ∧ Reach (step E) (Alone v) s₁ s' ∧
    s'.foreground = .idle ∧ s'.fault = none ∧
      s'.history = s.history ++ [.readReturned nbyte ret err bytes]

/-- `ef_read` would return a positive count. -/
def ReadDelivers (E : Env) (v : View) (nbyte : Nat) (s : PipelineState) : Prop :=
  ∃ s' ret err, ReadReturns E v nbyte s s' ret err ∧ 0 < ret

/-- `ef_read` would return `0`. -/
def ReadEnds (E : Env) (v : View) (nbyte : Nat) (s : PipelineState) : Prop :=
  ∃ s' err, ReadReturns E v nbyte s s' 0 err

/-- `ef_read` would return `-1` with `EAGAIN`, without starting a read. -/
def ReadTriesAgain (E : Env) (v : View) (nbyte : Nat) (s : PipelineState) : Prop :=
  ∃ s', ReadReturns E v nbyte s s' (-1) (some .eagain) ∧ s'.fileReads = s.fileReads

/-- A read action is under way. -/
def ReadPending (s : PipelineState) : Prop :=
  ∃ id a, s.action = .live id a ∧ (a.cmd = .operRead ∨ a.cmd = .operReadahead) ∧
    a.actionStatus ≠ .actionComplete

/-- `ef_write` passes its checks. -/
def WriteBegins (E : Env) (v : View) (buf : List UInt8) (s : PipelineState) : Prop :=
  s.callStep E v (.efWrite buf) = .ok { s with foreground := .writeSuspend buf }

/-! ### When data is delivered -/

/-- The position is at or behind the end of the file. -/
def AtEnd (v : View) (s : PipelineState) : Prop :=
  (s.see v).currFileSizeOnDisk ≤ (s.see v).fileOffset

/-- The test of the access mode in `chk_read_conditions`. -/
def Readable (oflag : OFlag) : Prop :=
  OFlag.has (if oflag.has O_DIRECT then oflag ^^^ O_DIRECT else oflag) O_RDWR ∨
    (if oflag.has O_DIRECT then oflag ^^^ O_DIRECT else oflag) = O_RDONLY

/-- `page_offset` -/
def pageOffset (E : Env) (v : View) (s : PipelineState) : Int :=
  (s.see v).fileOffset - (s.see v).bufferIndex * E.pageSize

/-- The position is in the page buffer. -/
structure InBuffer (E : Env) (v : View) (s : PipelineState) : Prop where
  buffer : s.file.buf.buffer.isSome = true
  low : 0 ≤ pageOffset E v s
  high : pageOffset E v s < E.pageSize
  size : s.file.fileOffset ≤ s.file.currFileSizeOnDisk

/-- The flush that `ef_read` makes finds its locks free, and the write
action is complete behind it. A flush counts the accumulator, if there is
something in it, and itself as requests. -/
def FlushCompletes (s : PipelineState) (a : FileCmd) : Prop :=
  s.handleToFileAction = 0 ∧ ∃ inp, a.writeInp = some inp ∧
    if s.file.oflag.has (O_RDWR ||| O_WRONLY) then
      s.preventActionMutation = 0 ∧ s.writeSuspended = 0 ∧
        if inp.wAccum = [] then
          a.actionStatus = .actionComplete ∨ inp.writeTotreqCount + 1 = inp.writeCmplCount
        else inp.writeTotreqCount + 2 = inp.writeCmplCount
    else a.actionStatus = .actionComplete ∨ inp.writeTotreqCount = inp.writeCmplCount

/-- `ef_read` gets past the action. -/
def GetsPast (s : PipelineState) : Prop :=
  match s.action with
  | .null => True
  | .freed => False
  | .live _ a =>
    match a.cmd with
    | .operOpen | .operReadahead | .operClose => a.actionStatus = .actionComplete
    | .operRead =>
      a.actionStatus = .actionComplete ∧ a.returnValue ≠ -1 ∧ a.returnValue ≠ -100 ∧ a.returnValue ≠ 0
    | .operWrite => FlushCompletes s a

/-- `ef_read` finds the position in the page buffer. -/
def Reaches (E : Env) (v : View) (s : PipelineState) : Prop := GetsPast s ∧ InBuffer E v s

/-- There is data to deliver. -/
def Deliverable (E : Env) (v : View) (s : PipelineState) : Prop :=
  Reaches E v s ∧ s.file.fileOffset < s.file.currFileSizeOnDisk

/-! ### When the query is right -/

/-- `ef_file_ready_for_read` agrees with `ef_read`: it is positive exactly
when data is delivered, `0` exactly at the end of the file, and `-1` with
`EAGAIN` exactly while a read is under way. -/
def ReadyTells (E : Env) (v : View) (nbyte : Nat) (s : PipelineState) : Prop :=
  ((∃ ret err, s.efFileReadyForRead v = .ok (ret, err) ∧ 0 < ret) ↔ ReadDelivers E v nbyte s) ∧
  ((∃ err, s.efFileReadyForRead v = .ok (0, err)) ↔ ReadEnds E v nbyte s) ∧
  (s.efFileReadyForRead v = .ok (-1, some .eagain) ↔ ReadPending s ∧ ReadTriesAgain E v nbyte s)

/-- The action is a read that has met the end of the file. -/
def CollectsEnd (s : PipelineState) : Prop :=
  ∃ id a, s.action = .live id a ∧ a.cmd = .operRead ∧ a.actionStatus = .actionComplete ∧ a.returnValue = 0

/-- What the query needs when there is data in front of the position. It
does not look at the page buffer, which must hold what the action says. -/
def ActionTells (E : Env) (v : View) (s : PipelineState) : Prop :=
  match s.action with
  | .null => ¬ InBuffer E v s
  | .freed => True
  | .live _ a =>
    match a.cmd with
    | .operOpen | .operClose => a.actionStatus = .actionComplete → ¬ InBuffer E v s
    | .operWrite => FlushCompletes s a → ¬ InBuffer E v s
    | .operReadahead =>
      a.actionStatus = .actionComplete → InBuffer E v s ∧ s.file.fileOffset < s.file.currFileSizeOnDisk
    | .operRead =>
      a.actionStatus = .actionComplete →
        if a.returnValue = -1 then a.err ≠ some .eagain
        else a.returnValue = 0 ∨ a.returnValue ≠ -100 ∧
          if 0 < a.returnValue then InBuffer E v s ∧ s.file.fileOffset < s.file.currFileSizeOnDisk
          else ¬ InBuffer E v s

/-- When `ef_file_ready_for_read` is right: at the end of the file only
with a read action that has met it, and before the end when the action says
what is in the page buffer. -/
def ReadyAgrees (E : Env) (v : View) (s : PipelineState) : Prop :=
  (AtEnd v s → CollectsEnd s) ∧ (¬ AtEnd v s → Readable s.file.oflag → ActionTells E v s)

/-- `ef_poll` tells the truth: bit `2` is set exactly when data is
delivered, and bit `1` exactly when `ef_write` passes its checks. -/
def PollTells (E : Env) (v : View) (nbyte : Nat) (s : PipelineState) : Prop :=
  ∃ ret, s.efPoll = .ok ret ∧ (OFlag.has ret 2 ↔ ReadDelivers E v nbyte s) ∧
    ∀ buf, buf ≠ [] → (OFlag.has ret 1 ↔ WriteBegins E v buf s)

/-- When `ef_poll` is right about a file opened with `oflag`. It takes every
page buffer of an `O_RDWR` file for data, and sees none of an `O_RDONLY`
file. -/
def PollAgrees (E : Env) (v : View) (oflag : OFlag) (s : PipelineState) : Prop :=
  (oflag.has O_RDWR → s.file.buf.buffer.isSome = true → Deliverable E v s) ∧
    (oflag = O_RDONLY → ¬ Deliverable E v s)

/-- The three access checks decode the access mode of `oflag`. -/
def DecodesMode (E : Env) (v : View) (nbyte : Nat) (oflag : OFlag) (s : PipelineState) : Prop :=
  (s.chkReadConditions E (s.see v) nbyte = .ok none ↔
    accessMode oflag = O_RDONLY ∨ accessMode oflag = O_RDWR) ∧
  (s.chkFdReadConditions (s.see v) = .ok (1, none) ↔
    accessMode oflag = O_RDONLY ∨ accessMode oflag = O_RDWR) ∧
  ∀ buf, buf ≠ [] → (WriteBegins E v buf s ↔
    accessMode oflag = O_WRONLY ∨ accessMode oflag = O_RDWR)

end Efio.Spec
