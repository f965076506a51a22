import Efio.Proofs.Evio.Carried
import Efio.Proofs.Evio.EngineFrame
import Efio.Proofs.Evio.MixedStep

/-!
# `Efio.Proofs.Evio.DrainInv`: what the calls know before a close

`Draining` is the invariant of all runs of the four calls on a file that is
open for writing, up to an accepted close. No byte is lost on the way
(`accounted`), and `DrainsAt` says what each place of the foreground thread
knows of the backlog: behind `sync_file_writes` it ends with an `fsync`,
and an action that is complete, or is about to be freed, has nothing on its
way.

It asks nothing of the system calls, and little of the file: the page is
clean whenever there is no write action. `Draining.of_frame` is the rule by
which most steps keep it.
-/

set_option autoImplicit false

namespace Efio.Proofs.Evio

open Efio.Lib
open Efio.Evio
open Efio.Evio.PipelineState
open Efio.Spec
open Efio.Spec.Backlog
open Efio.Proofs.Spec

variable {E : Env} {s s' : PipelineState}

/-! ### Definitions -/

/-- A complete write action has nothing on its way. -/
def Finished (b : Backlog) (p : ActionPtr) : Prop :=
  ∀ id a, p = .live id a → a.cmd = .operWrite → a.actionStatus = .actionComplete → Settled b

/-- A task of `ef_file_read` works on a read action that is not complete. -/
def ReadWorks (p : ActionPtr) (js : List ReadJob) : Prop :=
  js = [] ∨ (js.length = 1 ∧ Working .operRead p)

/-- The kind of action a call allocates. -/
def allocatedBy : AfterAlloc → FileOper
  | .write _ => .operWrite
  | .read _ => .operRead
  | .close _ => .operClose

/-- What the places of the four calls know of the action, of the backlog
and of the tasks of `ef_file_read`. -/
def DrainsAt (b : Backlog) (p : ActionPtr) (js : List ReadJob) : ForegroundPc → Prop
  | .freeing _ _ | .closeDrop _ => (IsWrite p → Settled b) ∧ js = []
  | .syncing q _ => IsWrite p → Incomplete p ∧ Flushed b q
  | .setting q _ => (q ≠ .readTotreq → IsWrite p) ∧ (IsWrite p → Incomplete p ∧ Met b q)
  | .readTest _ _ | .readDrop _ _ => Finished b p
  | .closeTest _ => Finished b p ∧ (IsWrite p → EndsClean b)
  | .allocating q oper k => Allocates oper q p ∧ js = [] ∧ oper = allocatedBy k
  | .readEnqueue _ => Working .operRead p ∧ js = []
  | .closeDispatch _ => Working .operClose p
  | .closing _ => False
  | _ => Incomplete p

/-- The invariant before an accepted close. -/
structure Draining (s : PipelineState) : Prop where
  live : s.recordLive = true
  slot : s.slot = true
  status : s.status = .fileOpen
  closes : s.fileCloses = []
  inv : PipelineInv s
  writable : s.file.oflag.has (O_RDWR ||| O_WRONLY)
  clean : ¬ IsWrite s.action → s.file.buf.isDirty = false
  accounted : (flow s).carried ++ restOf s.foreground = acceptedBytes s.history
  reads : ReadWorks s.action s.fileReads
  place : DrainsAt (backlog s) s.action s.fileReads s.foreground

/-! ### Without a write action -/

theorem liveWrite_of_not_isWrite (hno : ¬ IsWrite s.action) : liveWrite s = none := by
  cases hlw : liveWrite s with
  | none => rfl
  | some r =>
    obtain ⟨-, a, hact, hcmd, -⟩ := liveWrite_eq_some.mp hlw
    exact absurd ⟨r.1, a, hact, hcmd⟩ hno

/-- Without a write action nothing is on its way. -/
theorem backlog_of_not_isWrite (h : PipelineInv s) (hno : ¬ IsWrite s.action) :
    s.pushed = s.executed ∧ pushOf s = none ∧ backlog s = ⟨s.file, [], none, [], 0⟩ := by
  have hnone := liveWrite_of_not_isWrite hno
  obtain ⟨⟨-, -, -, hpush⟩, hall⟩ := h.flow.quiet hnone
  change pushOf s = none at hpush
  change s.pushed = s.executed at hall
  refine ⟨hall, hpush, ?_⟩
  unfold backlog backlogWith flowWith WriteFlow.backlog
  rw [hpush, hnone, hall, List.drop_length]
  rfl

theorem settled_of_not_isWrite (h : PipelineInv s) (hno : ¬ IsWrite s.action)
    (hclean : s.file.buf.isDirty = false) : Settled (backlog s) := by
  rw [(backlog_of_not_isWrite h hno).2.2]
  exact ⟨rfl, nofun, nofun, hclean⟩

theorem Draining.settled (h : Draining s) (hno : ¬ IsWrite s.action) : Settled (backlog s) :=
  settled_of_not_isWrite h.inv hno (h.clean hno)

/-- Without a write action the carried bytes are executed. -/
theorem carried_of_not_isWrite (h : PipelineInv s) (hno : ¬ IsWrite s.action) :
    (flow s).carried = payload s.executed := by
  obtain ⟨hall, hpush, -⟩ := backlog_of_not_isWrite h hno
  rw [flow, hpush, carried_of_none (liveWrite_of_not_isWrite hno), hall]
  simp [countedTask, waitingTask]

/-! ### The tasks of `ef_file_read` -/

theorem ReadWorks.nil {p : ActionPtr} {js : List ReadJob} (h : ReadWorks p js)
    (hno : ¬ Working .operRead p) : js = [] :=
  h.resolve_right fun hw => hno hw.2

theorem ReadWorks.nil_of_complete {p : ActionPtr} {js : List ReadJob} (h : ReadWorks p js) {id : Nat}
    {a : FileCmd} (hact : p = .live id a) (hcomplete : a.actionStatus = .actionComplete) : js = [] := by
  refine h.nil ?_
  rintro ⟨id', a', hact', -, hopen⟩
  obtain ⟨-, rfl⟩ := ActionPtr.live.inj (hact.symm.trans hact')
  exact hopen hcomplete

theorem ReadWorks.nil_of_null {p : ActionPtr} {js : List ReadJob} (h : ReadWorks p js)
    (hnull : p = .null) : js = [] := by
  refine h.nil ?_
  rintro ⟨id, a, hact, -⟩
  cases hnull.symm.trans hact

theorem ReadWorks.step {p p' : ActionPtr} {js : List ReadJob} (h : ReadWorks p js)
    (hstores : Stores false p p') : ReadWorks p' js :=
  h.imp_right fun hw => ⟨hw.1, hstores.working hw.2⟩

/-! ### The background -/

theorem Finished.step {b b' : Backlog} {p p' : ActionPtr} (h : Finished b p)
    (hstores : Stores false p p') (hstep : BacklogStep E b b') : Finished b' p' := by
  intro id a hact hcmd hcomplete
  refine settled_step ?_ hstep
  cases hstores with
  | same => exact h id a hact hcmd hcomplete
  | store a' hact₀ hcmd₀ hinp hstatus =>
    obtain ⟨rfl, rfl⟩ := ActionPtr.live.inj hact
    exact h _ _ hact₀ (hcmd₀.symm.trans hcmd) (hstatus rfl hcomplete)

/-- The background keeps what the foreground thread knows. -/
theorem DrainsAt.step {b b' : Backlog} {p p' : ActionPtr} {js : List ReadJob} {pc : ForegroundPc}
    (h : DrainsAt b p js pc) (hstores : Stores false p p') (hstep : BacklogStep E b b') :
    DrainsAt b' p' js pc := by
  have hsettled : (IsWrite p → Settled b) ∧ js = [] → (IsWrite p' → Settled b') ∧ js = [] :=
    fun h => ⟨fun hwrite => settled_step (h.1 (hstores.isWrite hwrite)) hstep, h.2⟩
  cases pc with
  | freeing q k => exact hsettled h
  | closeDrop immediate => exact hsettled h
  | syncing q k =>
    intro hwrite
    obtain ⟨hinc, hflushed⟩ := h (hstores.isWrite hwrite)
    exact ⟨hstores.incomplete hinc, hflushed.step hstep⟩
  | setting q k =>
    refine ⟨fun hq => hstores.isWrite_of (h.1 hq), fun hwrite => ?_⟩
    obtain ⟨hinc, hmet⟩ := h.2 (hstores.isWrite hwrite)
    exact ⟨hstores.incomplete hinc, hmet.step hstep⟩
  | readTest nbyte po => exact Finished.step h hstores hstep
  | closeTest immediate =>
    exact ⟨h.1.step hstores hstep, fun hwrite => endsClean_step (h.2 (hstores.isWrite hwrite)) hstep⟩
  | readDrop nbyte po => exact Finished.step h hstores hstep
  | allocating q oper k => exact ⟨hstores.allocates h.1, h.2⟩
  | readEnqueue nbyte => exact ⟨hstores.working h.1, h.2⟩
  | closeDispatch immediate => exact hstores.working h
  | closing p => exact h
  | _ => exact hstores.incomplete h

/-- A place knows little of an action that is no write action while a task
of `ef_file_read` runs. -/
theorem DrainsAt.of_reading {b b' : Backlog} {p p' : ActionPtr} {js js' : List ReadJob}
    {pc : ForegroundPc} (h : DrainsAt b p js pc) (hno : ¬ IsWrite p') (hread : Working .operRead p)
    (hjs : js ≠ []) : DrainsAt b' p' js' pc := by
  have hinc := incomplete_of_not_isWrite hno
  cases pc with
  | freeing q k => exact absurd h.2 hjs
  | closeDrop immediate => exact absurd h.2 hjs
  | syncing q k => exact fun hwrite => absurd hwrite hno
  | setting q k => exact ⟨fun hq => absurd (h.1 hq) hread.not_isWrite, fun hwrite => absurd hwrite hno⟩
  | readTest nbyte po => exact fun id a hact hcmd => absurd ⟨id, a, hact, hcmd⟩ hno
  | closeTest immediate =>
    exact ⟨fun id a hact hcmd => absurd ⟨id, a, hact, hcmd⟩ hno, fun hwrite => absurd hwrite hno⟩
  | readDrop nbyte po => exact fun id a hact hcmd => absurd ⟨id, a, hact, hcmd⟩ hno
  | allocating q oper k => exact absurd h.2.1 hjs
  | readEnqueue nbyte => exact absurd h.2 hjs
  | closeDispatch immediate =>
    obtain ⟨id, a, hact, hcmd, -⟩ := h
    obtain ⟨id', a', hact', hcmd', -⟩ := hread
    obtain ⟨-, rfl⟩ := ActionPtr.live.inj (hact.symm.trans hact')
    cases hcmd.symm.trans hcmd'
  | closing p => exact h
  | _ => exact hinc

/-! ### Rules -/

/-- A step of any thread that neither frees nor allocates. -/
theorem Draining.of_frame (completes : Bool) (h : Draining s) (hinv : PipelineInv s')
    (hframe : Frame completes { s with
      file := s'.file
      foreground := s'.foreground
      slowSync := s'.slowSync
      fileReads := s'.fileReads
      history := s'.history } s')
    (hoflag : s'.file.oflag = s.file.oflag)
    (hdirty : s'.file.buf.isDirty = s.file.buf.isDirty ∨ IsWrite s.action)
    (haccounted : (flow s').carried ++ restOf s'.foreground = acceptedBytes s'.history)
    (hreads : ReadWorks s'.action s'.fileReads)
    (hplace : DrainsAt (backlog s') s'.action s'.fileReads s'.foreground) : Draining s' where
  live := (show s'.recordLive = s.recordLive by rw [hframe.rest]).trans h.live
  slot := (show s'.slot = s.slot by rw [hframe.rest]).trans h.slot
  status := (show s'.status = s.status by rw [hframe.rest]).trans h.status
  closes := (show s'.fileCloses = s.fileCloses by rw [hframe.rest]).trans h.closes
  inv := hinv
  writable := hoflag ▸ h.writable
  clean := fun hno => by
    have hno' : ¬ IsWrite s.action := fun hwrite => hno (hframe.action.isWrite_of hwrite)
    rw [hdirty.resolve_right hno']
    exact h.clean hno'
  accounted := haccounted
  reads := hreads
  place := hplace

/-- A step of `slow_sync`, of `file_writer` or of `ef_file_write`. -/
theorem Draining.background (h : Draining s) (hinv : PipelineInv s')
    (hframe : Frame false { s with file := s'.file, slowSync := s'.slowSync } s')
    (hoflag : s'.file.oflag = s.file.oflag)
    (hstep : BacklogStep E (backlog s) (backlog s'))
    (hcarried : (flow s').carried = (flow s).carried)
    (hsame : s'.file = s.file ∨ IsWrite s.action) : Draining s' := by
  have hfg : s'.foreground = s.foreground := hframe.foreground
  have hreads : s'.fileReads = s.fileReads := by rw [hframe.rest]
  have hhistory : s'.history = s.history := by rw [hframe.rest]
  refine h.of_frame false hinv ?_ hoflag (hsame.imp_left fun heq => by rw [heq]) ?_ ?_ ?_
  · rw [hfg, hreads, hhistory]
    exact hframe
  · rw [hcarried, hfg, hhistory]
    exact h.accounted
  · rw [hreads]
    exact h.reads.step hframe.action
  · rw [hreads, hfg]
    exact h.place.step hframe.action hstep

/-- The foreground thread goes on without touching the write flow. -/
theorem Draining.goto (h : Draining s) (hinv : PipelineInv s')
    (hrest : s' = { s with
      preventActionMutation := s'.preventActionMutation
      writeSuspended := s'.writeSuspended
      handleToFileAction := s'.handleToFileAction
      fileReads := s'.fileReads
      foreground := s'.foreground
      history := s'.history })
    (hpush : foregroundPush s'.foreground = foregroundPush s.foreground)
    (haccounted : (flow s).carried ++ restOf s'.foreground = acceptedBytes s'.history)
    (hreads : ReadWorks s.action s'.fileReads)
    (hplace : DrainsAt (backlog s) s.action s'.fileReads s'.foreground) : Draining s' := by
  have hback : backlog s' = backlog s := by
    refine backlog_goto ?_ ?_ ?_ ?_ ?_ hpush <;> rw [hrest]
    rfl
  have hflow : flow s' = flow s := by
    rw [flow, flow, pushOf, pushOf, hpush, hrest]
    rfl
  refine h.of_frame false hinv ⟨?_, ?_⟩ ?_ (Or.inl ?_) ?_ ?_ ?_
  · rw [hrest]
  · rw [hrest]
    exact .same
  · rw [hrest]
  · rw [hrest]
  · rw [hflow]
    exact haccounted
  · rw [show s'.action = s.action by rw [hrest]]
    exact hreads
  · rw [hback, show s'.action = s.action by rw [hrest]]
    exact hplace

/-- The foreground thread goes to another place. -/
theorem Draining.jump (h : Draining s) (hinv : PipelineInv s')
    (hrest : s' = { s with
      preventActionMutation := s'.preventActionMutation
      writeSuspended := s'.writeSuspended
      handleToFileAction := s'.handleToFileAction
      foreground := s'.foreground })
    (hpush : foregroundPush s'.foreground = foregroundPush s.foreground)
    (hbytes : restOf s'.foreground = restOf s.foreground)
    (hplace : DrainsAt (backlog s) s.action s.fileReads s'.foreground) : Draining s' := by
  have hreads : s'.fileReads = s.fileReads := by rw [hrest]
  have hhistory : s'.history = s.history := by rw [hrest]
  refine h.goto hinv ?_ hpush ?_ ?_ ?_
  · rw [hreads, hhistory]
    exact hrest
  · rw [hbytes, hhistory]
    exact h.accounted
  · rw [hreads]
    exact h.reads
  · rw [hreads]
    exact hplace

/-- `ef_read` returns without bytes. -/
theorem Draining.finish (h : Draining s) {nbyte : Nat} {ret : Int} {err : Option Errno}
    {bytes : List UInt8} (hinv : PipelineInv s')
    (hrest : s' = { s with
      preventActionMutation := s'.preventActionMutation
      fileReads := s'.fileReads
      foreground := .idle
      history := s.history ++ [.readReturned nbyte ret err bytes] })
    (hpush : foregroundPush s.foreground = none) (hbytes : restOf s.foreground = [])
    (hreads : ReadWorks s.action s'.fileReads) (hinc : Incomplete s.action) : Draining s' := by
  refine h.goto hinv ?_ ?_ ?_ hreads ?_
  · rw [hrest]
  · rw [hrest]
    exact hpush.symm
  · rw [hrest]
    have haccounted := h.accounted
    rw [hbytes] at haccounted
    rw [acceptedBytes_returned]
    exact haccounted
  · rw [hrest]
    exact hinc

end Efio.Proofs.Evio
