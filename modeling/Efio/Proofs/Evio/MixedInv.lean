import Efio.Proofs.Evio.PageReader
import Efio.Proofs.Evio.PipelineBacklog
import Efio.Spec.Accepted

/-!
# `Efio.Proofs.Evio.MixedInv`: `ef_read` and `ef_write` on one file

`Mixed` is the invariant of the runs in which the foreground thread calls
`ef_read` and `ef_write`. The file, with the bytes that are on their way
to it (`pending`), stands for the plain file of the calls so far.
`MixedPlace` says for each place of the two calls what the action, the
task of `ef_file_read` and the backlog are: behind `sync_file_writes` the
backlog ends with an `fsync`, and behind a `SET_WRITE_ACTION_STATUS` that
completes the action it is settled.

`Mixed.of_frame` is the rule by which most steps keep it;
`MixedPlace.step` is that the background does.
-/

set_option autoImplicit false

namespace Efio.Proofs.Evio

open Efio.Lib
open Efio.Evio
open Efio.Evio.PipelineState
open Efio.Spec
open Efio.Spec.Backlog
open Efio.Proofs.Spec

variable {E : Env} {init : List UInt8} {s s' : PipelineState}

/-! ### Definitions -/

/-- The bytes that are accepted and not yet in the file, in order. -/
def pending (s : PipelineState) : List UInt8 := (backlog s).outstanding ++ restOf s.foreground

/-- The action is live, of this kind, and not complete. -/
def Working (oper : FileOper) (p : ActionPtr) : Prop :=
  ∃ id a, p = .live id a ∧ a.cmd = oper ∧ a.actionStatus ≠ .actionComplete

/-- What `alloc_file_action` finds and leaves at its places. -/
def Allocates (oper : FileOper) : AllocPc → ActionPtr → Prop
  | .acquire _, p | .init, p => p = .null
  | .release, p => Working oper p

/-- The task of `ef_file_read`, and the action and the page buffer it works
on. -/
inductive PageRead (f : EfFile) (p : ActionPtr) : List ReadJob → Prop where
  | none : PageRead f p []
  | queued (hwork : Working .operRead p) (hbuf : f.buf.buffer = none) :
      PageRead f p [.queued f.buf.bufferIndex]
  | load (hwork : Working .operRead p) (hbuf : f.buf.buffer = none) :
      PageRead f p [.load f.buf.bufferIndex]
  | publish {ret : Int} {err : Option Errno} (hwork : Working .operRead p) :
      PageRead f p [.publish ret err]

/-- What `sync_file_writes` has done for an `ef_read`. -/
def Flushed (b : Backlog) : SyncPc → Prop
  | .awaitComplete => False
  | .lowSyncPush _ | .fsync => b.accum = []
  | .fsyncPush (.count w) => b.accum = [] ∧ w.cmd = .fileFsyncEvt
  | .fsyncPush _ | .resumeWrites | .unlockAction | .unlockHandle => EndsClean b
  | _ => True

/-- What `SET_WRITE_ACTION_STATUS` has found out. -/
def Met (b : Backlog) : SetPc → Prop
  | .readTotreq => EndsClean b
  | .compare totreq => EndsCleanAt b totreq
  | .store => Settled b

/-- How `ef_read` and `ef_write` go on after `free_file_action`. -/
def dropGoes : AfterFree → Prop
  | .write _ | .readDrop _ _ | .readBuffer _ _ => True
  | .readDone _ ret _ => ret ≤ 0
  | _ => False

/-- The call has not looked at the action yet, or is about to return. -/
def outsidePlace : ForegroundPc → Bool
  | .idle | .writeSuspend _ | .writeTest _ | .writeResume | .readSnapshot _ => true
  | _ => false

/-- What the places of `ef_read` and `ef_write` need. -/
inductive MixedPlace (f : EfFile) (b : Backlog) (p : ActionPtr) (js : List ReadJob) :
    ForegroundPc → Prop where
  | outside {pc : ForegroundPc} (hpc : outsidePlace pc = true) (hinc : Incomplete p) :
      MixedPlace f b p js pc
  | ensure {buf : List UInt8} (hact : p = .null ∨ Working .operWrite p) :
      MixedPlace f b p js (.writeEnsure buf)
  | allocWrite {q : AllocPc} {buf : List UInt8} (halloc : Allocates .operWrite q p) :
      MixedPlace f b p js (.allocating q .operWrite (.write buf))
  | loop {buf : List UInt8} {done : Nat} (hwork : Working .operWrite p) :
      MixedPlace f b p js (.writeLoop buf done)
  | push {q : PushPc} {buf : List UInt8} {done : Nat} (hwork : Working .operWrite p) :
      MixedPlace f b p js (.pushing q (.write buf done))
  | free {q : FreePc} {k : AfterFree} (hk : dropGoes k) (hsettled : Settled b) (hjs : js = []) :
      MixedPlace f b p js (.freeing q k)
  | drop {nbyte : Nat} {po : Int} (hsettled : Settled b) (hjs : js = []) :
      MixedPlace f b p js (.readDrop nbyte po)
  | buffer {nbyte : Nat} {po : Int} (hsettled : Settled b) (hjs : js = []) (hinc : Incomplete p) :
      MixedPlace f b p js (.readBuffer nbyte po)
  | fire {nbyte : Nat} (hnull : p = .null) (hbuf : f.buf.buffer = none) :
      MixedPlace f b p js (.readFire nbyte)
  | allocRead {q : AllocPc} {nbyte : Nat} (halloc : Allocates .operRead q p)
      (hbuf : f.buf.buffer = none) (hjs : js = []) :
      MixedPlace f b p js (.allocating q .operRead (.read nbyte))
  | enqueue {nbyte : Nat} (hwork : Working .operRead p) (hbuf : f.buf.buffer = none)
      (hjs : js = []) : MixedPlace f b p js (.readEnqueue nbyte)
  | sync {q : SyncPc} {nbyte : Nat} {po : Int} (hwork : Working .operWrite p) (hflushed : Flushed b q) :
      MixedPlace f b p js (.syncing q (.read nbyte po))
  | set {q : SetPc} {nbyte : Nat} {po : Int} (hwork : Working .operWrite p) (hmet : Met b q) :
      MixedPlace f b p js (.setting q (.read nbyte po))
  | test {nbyte : Nat} {po : Int} (hwrite : IsWrite p)
      (hsettled : ∀ id a, p = .live id a → a.actionStatus = .actionComplete → Settled b) :
      MixedPlace f b p js (.readTest nbyte po)

/-- The record stays open, and no `EV_ABORT` is reached. -/
structure StaysOpen (s : PipelineState) : Prop where
  live : s.recordLive = true
  slot : s.slot = true
  status : s.status = .fileOpen
  closes : s.fileCloses = []
  noAbort : ∀ text, s.fault ≠ some (.evAbort text)

/-- The invariant of the runs with `ef_read` and `ef_write`. -/
structure Mixed (E : Env) (init : List UInt8) (s : PipelineState) : Prop extends StaysOpen s where
  inv : PipelineInv s
  clean : ¬ IsWrite s.action → s.file.buf.isDirty = false
  stands : Matches E init s.history s.file (pending s)
  reads : PageRead s.file s.action s.fileReads
  place : MixedPlace s.file (backlog s) s.action s.fileReads s.foreground

/-! ### The action -/

theorem Working.isWrite {p : ActionPtr} (h : Working .operWrite p) : IsWrite p := by
  obtain ⟨id, a, hact, hcmd, -⟩ := h
  exact ⟨id, a, hact, hcmd⟩

theorem Working.incomplete {p : ActionPtr} {oper : FileOper} (h : Working oper p) : Incomplete p := by
  obtain ⟨id, a, hact, -, hstatus⟩ := h
  intro id' a' hact' _
  obtain ⟨-, rfl⟩ := ActionPtr.live.inj (hact.symm.trans hact')
  exact hstatus

theorem Working.of_incomplete {p : ActionPtr} {id : Nat} {a : FileCmd} (hinc : Incomplete p)
    (hact : p = .live id a) (hcmd : a.cmd = .operWrite) : Working .operWrite p :=
  ⟨id, a, hact, hcmd, hinc id a hact hcmd⟩

theorem not_isWrite_of_null {p : ActionPtr} (h : p = .null) : ¬ IsWrite p := by
  rintro ⟨id, a, hact, -⟩
  cases h.symm.trans hact

theorem not_isWrite_of_live {p : ActionPtr} {id : Nat} {a : FileCmd} (hact : p = .live id a)
    (hcmd : a.cmd ≠ .operWrite) : ¬ IsWrite p := by
  rintro ⟨id', a', hact', hcmd'⟩
  obtain ⟨-, rfl⟩ := ActionPtr.live.inj (hact.symm.trans hact')
  exact hcmd hcmd'

theorem Working.not_isWrite {p : ActionPtr} (h : Working .operRead p) : ¬ IsWrite p := by
  obtain ⟨id, a, hact, hcmd, -⟩ := h
  exact not_isWrite_of_live hact (by rw [hcmd]; nofun)

theorem incomplete_of_not_isWrite {p : ActionPtr} (h : ¬ IsWrite p) : Incomplete p :=
  fun id a hact hcmd => absurd ⟨id, a, hact, hcmd⟩ h

theorem Stores.working {p p' : ActionPtr} {oper : FileOper} (h : Stores false p p')
    (hwork : Working oper p) : Working oper p' := by
  cases h with
  | same => exact hwork
  | store a' hact hcmd hinp hstatus =>
    obtain ⟨id, a, hact', hop, hopen⟩ := hwork
    obtain ⟨-, rfl⟩ := ActionPtr.live.inj (hact.symm.trans hact')
    exact ⟨_, a', rfl, hcmd.trans hop, fun hcomplete => hopen (hstatus rfl hcomplete)⟩

theorem Stores.isWrite_of {completes : Bool} {p p' : ActionPtr} (h : Stores completes p p')
    (hwrite : IsWrite p) : IsWrite p' := by
  cases h with
  | same => exact hwrite
  | store a' hact hcmd hinp hstatus =>
    obtain ⟨id, a, hact', hop⟩ := hwrite
    obtain ⟨-, rfl⟩ := ActionPtr.live.inj (hact.symm.trans hact')
    exact ⟨_, a', rfl, hcmd.trans hop⟩

theorem Stores.allocates {p p' : ActionPtr} {oper : FileOper} {q : AllocPc} (h : Stores false p p')
    (halloc : Allocates oper q p) : Allocates oper q p' := by
  cases q with
  | release => exact h.working halloc
  | _ => exact h.keeps.null.mpr halloc

theorem Allocates.not_isWrite {p : ActionPtr} {q : AllocPc} (h : Allocates .operRead q p) :
    ¬ IsWrite p := by
  cases q with
  | release => exact Working.not_isWrite h
  | _ => exact not_isWrite_of_null h

/-! ### The task of `ef_file_read` -/

theorem PageRead.nil {f : EfFile} {p : ActionPtr} {js : List ReadJob} (h : PageRead f p js)
    (hno : ¬ Working .operRead p) : js = [] := by
  cases h with
  | none => rfl
  | _ => exact absurd ‹_› hno

theorem PageRead.nil_of_isWrite {f : EfFile} {p : ActionPtr} {js : List ReadJob}
    (h : PageRead f p js) (hwrite : IsWrite p) : js = [] :=
  h.nil fun hwork => hwork.not_isWrite hwrite

theorem PageRead.nil_of_null {f : EfFile} {p : ActionPtr} {js : List ReadJob}
    (h : PageRead f p js) (hnull : p = .null) : js = [] := by
  refine h.nil ?_
  rintro ⟨id, a, hact, -⟩
  cases hnull.symm.trans hact

theorem PageRead.nil_of_complete {f : EfFile} {p : ActionPtr} {js : List ReadJob}
    (h : PageRead f p js) {id : Nat} {a : FileCmd} (hact : p = .live id a)
    (hcomplete : a.cmd = .operRead → a.actionStatus = .actionComplete) : js = [] := by
  refine h.nil ?_
  rintro ⟨id', a', hact', hcmd, hopen⟩
  obtain ⟨-, rfl⟩ := ActionPtr.live.inj (hact.symm.trans hact')
  exact hopen (hcomplete hcmd)

/-- The background leaves the task of `ef_file_read` alone. -/
theorem PageRead.step {f f' : EfFile} {p p' : ActionPtr} {js : List ReadJob} (h : PageRead f p js)
    (hstores : Stores false p p') (hfile : f' = f ∨ IsWrite p) : PageRead f' p' js := by
  have hsame : Working .operRead p → f' = f := fun hwork => hfile.resolve_right hwork.not_isWrite
  cases h with
  | none => exact .none
  | queued hwork hbuf =>
    rw [← hsame hwork] at hbuf ⊢
    exact .queued (hstores.working hwork) hbuf
  | load hwork hbuf =>
    rw [← hsame hwork] at hbuf ⊢
    exact .load (hstores.working hwork) hbuf
  | publish hwork => exact .publish (hstores.working hwork)

/-! ### The backlog under the background -/

theorem accum_step {b b' : Backlog} (h : b.accum = []) (hstep : BacklogStep E b b') :
    b'.accum = [] := by
  cases hstep with
  | flush hnone hsome => exact absurd h hsome
  | _ => exact h

theorem Flushed.step {b b' : Backlog} (hstep : BacklogStep E b b') {q : SyncPc} (h : Flushed b q) :
    Flushed b' q := by
  cases q with
  | awaitComplete => exact h
  | lowSyncPush p => exact accum_step h hstep
  | fsync => exact accum_step h hstep
  | fsyncPush p =>
    cases p with
    | count w => exact ⟨accum_step h.1 hstep, h.2⟩
    | _ => exact endsClean_step h hstep
  | resumeWrites => exact endsClean_step h hstep
  | unlockAction => exact endsClean_step h hstep
  | unlockHandle => exact endsClean_step h hstep
  | _ => trivial

theorem Met.step {b b' : Backlog} (hstep : BacklogStep E b b') {q : SetPc} (h : Met b q) :
    Met b' q := by
  cases q with
  | readTotreq => exact endsClean_step h hstep
  | compare totreq => exact endsCleanAt_step h hstep
  | store => exact settled_step h hstep

/-- The background keeps what the foreground thread relies on. -/
theorem MixedPlace.step {f f' : EfFile} {b b' : Backlog} {p p' : ActionPtr} {js : List ReadJob}
    {pc : ForegroundPc} (hstores : Stores false p p') (hstep : BacklogStep E b b')
    (hsame : f' = f ∨ IsWrite p) (h : MixedPlace f b p js pc) :
    MixedPlace f' b' p' js pc := by
  cases h with
  | outside hpc hinc => exact .outside hpc (hstores.incomplete hinc)
  | ensure hact => exact .ensure (hact.imp hstores.keeps.null.mpr hstores.working)
  | allocWrite halloc => exact .allocWrite (hstores.allocates halloc)
  | loop hwork => exact .loop (hstores.working hwork)
  | push hwork => exact .push (hstores.working hwork)
  | free hk hsettled hjs => exact .free hk (settled_step hsettled hstep) hjs
  | drop hsettled hjs => exact .drop (settled_step hsettled hstep) hjs
  | buffer hsettled hjs hinc =>
    exact .buffer (settled_step hsettled hstep) hjs (hstores.incomplete hinc)
  | fire hnull hbuf =>
    obtain rfl := hsame.resolve_right (not_isWrite_of_null hnull)
    exact .fire (hstores.keeps.null.mpr hnull) hbuf
  | allocRead halloc hbuf hjs =>
    obtain rfl := hsame.resolve_right halloc.not_isWrite
    exact .allocRead (hstores.allocates halloc) hbuf hjs
  | enqueue hwork hbuf hjs =>
    obtain rfl := hsame.resolve_right hwork.not_isWrite
    exact .enqueue (hstores.working hwork) hbuf hjs
  | sync hwork hflushed => exact .sync (hstores.working hwork) (hflushed.step hstep)
  | set hwork hmet => exact .set (hstores.working hwork) (hmet.step hstep)
  | test hwrite hsettled =>
    refine .test (hstores.isWrite_of hwrite) fun id a hact hcomplete => ?_
    refine settled_step ?_ hstep
    cases hstores with
    | same => exact hsettled id a hact hcomplete
    | store a' hact₀ hcmd hinp hstatus =>
      obtain ⟨rfl, rfl⟩ := ActionPtr.live.inj hact
      exact hsettled _ _ hact₀ (hstatus rfl hcomplete)

/-! ### Rules -/

/-- Without a write action nothing is on its way and the page is clean. -/
theorem Mixed.settled (h : Mixed E init s) (hno : ¬ IsWrite s.action) : Settled (backlog s) := by
  have hnone : liveWrite s = none := by
    cases hlw : liveWrite s with
    | none => rfl
    | some r =>
      obtain ⟨-, a, hact, hcmd, -⟩ := liveWrite_eq_some.mp hlw
      exact absurd ⟨r.1, a, hact, hcmd⟩ hno
  obtain ⟨⟨-, -, -, hpush⟩, hall⟩ := h.inv.flow.quiet hnone
  change pushOf s = none at hpush
  change s.pushed = s.executed at hall
  have hback : backlog s = ⟨s.file, [], none, [], 0⟩ := by
    unfold backlog backlogWith flowWith WriteFlow.backlog
    rw [hpush, hnone, hall, List.drop_length]
    rfl
  rw [hback]
  exact ⟨rfl, nofun, nofun, h.clean hno⟩

/-- The file of an invariant state. -/
theorem Mixed.overwrites (h : Mixed E init s) : ∃ content, OverwriteFile E s.file content := by
  obtain ⟨content, -, -, hfile, -⟩ := h.stands
  exact ⟨content, hfile⟩

/-- A step of the backlog, while the call keeps its bytes. -/
theorem Mixed.pending_step (hE : E.Reliable) (h : Mixed E init s)
    (hstep : BacklogStep E (backlog s) (backlog s')) (hhistory : s'.history = s.history)
    (hbytes : restOf s'.foreground = restOf s.foreground) :
    Matches E init s'.history s'.file (pending s') := by
  have hmatches : Matches E init s.history s'.file ((backlog s').outstanding ++ restOf s.foreground) :=
    Matches.step (b := backlog s) hE h.stands hstep
  rw [← hbytes, ← hhistory] at hmatches
  exact hmatches

theorem StaysOpen.of_rest (h : StaysOpen s) (hlive : s'.recordLive = s.recordLive)
    (hslot : s'.slot = s.slot) (hstatus : s'.status = s.status)
    (hcloses : s'.fileCloses = s.fileCloses) (hfault : s'.fault = s.fault) : StaysOpen s' :=
  ⟨hlive.trans h.live, hslot.trans h.slot, hstatus.trans h.status, hcloses.trans h.closes,
    hfault ▸ h.noAbort⟩

/-- A step of any thread that neither frees nor allocates. -/
theorem Mixed.of_frame (completes : Bool) (h : Mixed E init s) (hinv : PipelineInv s')
    (hframe : Frame completes { s with
      file := s'.file
      foreground := s'.foreground
      slowSync := s'.slowSync
      fileReads := s'.fileReads
      history := s'.history } s')
    (hdirty : s'.file.buf.isDirty = s.file.buf.isDirty ∨ IsWrite s.action)
    (hstands : Matches E init s'.history s'.file (pending s'))
    (hreads : PageRead s'.file s'.action s'.fileReads)
    (hplace : MixedPlace s'.file (backlog s') s'.action s'.fileReads s'.foreground) :
    Mixed E init s' := by
  have hrest := hframe.rest
  refine ⟨h.toStaysOpen.of_rest ?_ ?_ ?_ ?_ ?_, hinv, fun hno => ?_, hstands, hreads, hplace⟩
  iterate 5 rw [hrest]
  · have hno' : ¬ IsWrite s.action := fun hwrite => hno (hframe.action.isWrite_of hwrite)
    rw [hdirty.resolve_right hno']
    exact h.clean hno'

/-- The foreground thread runs a piece of shared code on a write action. -/
theorem Mixed.of_code (hE : E.Reliable) {completes : Bool} {s₁ : PipelineState} {pc : ForegroundPc}
    (h : Mixed E init s) (hinv : PipelineInv { s₁ with foreground := pc })
    (hframe : Frame completes s s₁) (hwrite : IsWrite s.action)
    (hstep : BacklogStep E (backlog s) (backlog { s₁ with foreground := pc }))
    (hbytes : restOf pc = restOf s.foreground)
    (hplace : MixedPlace s.file (backlog { s₁ with foreground := pc }) s₁.action [] pc) :
    Mixed E init { s₁ with foreground := pc } := by
  have hfile : s₁.file = s.file := by rw [hframe.rest]
  have hhistory : s₁.history = s.history := by rw [hframe.rest]
  have hreads : s₁.fileReads = s.fileReads := by rw [hframe.rest]
  have hjs : s₁.fileReads = [] := hreads.trans (h.reads.nil_of_isWrite hwrite)
  refine h.of_frame completes hinv ⟨?_, hframe.action⟩ (Or.inl ?_)
    (h.pending_step hE hstep hhistory hbytes) ?_ ?_
  · simp only [hfile, hhistory, hreads, hframe.slowSync]
    conv => lhs; rw [hframe.rest]
  · simp only [hfile]
  · simp only [hjs]
    exact .none
  · show MixedPlace s₁.file (backlog { s₁ with foreground := pc }) s₁.action s₁.fileReads pc
    generalize backlog { s₁ with foreground := pc } = b at hplace ⊢
    rw [hfile, hjs]
    exact hplace

/-- A step of `slow_sync`, of `file_writer` or of `ef_file_write`. -/
theorem Mixed.background (hE : E.Reliable) (h : Mixed E init s) (hinv : PipelineInv s')
    (hframe : Frame false { s with file := s'.file, slowSync := s'.slowSync } s')
    (hstep : BacklogStep E (backlog s) (backlog s')) (hsame : s'.file = s.file ∨ IsWrite s.action) :
    Mixed E init s' := by
  have hfg : s'.foreground = s.foreground := hframe.foreground
  have hreads : s'.fileReads = s.fileReads := by rw [hframe.rest]
  have hhistory : s'.history = s.history := by rw [hframe.rest]
  refine h.of_frame false hinv ?_ ?_ (h.pending_step hE hstep hhistory (by rw [hfg])) ?_ ?_
  · rw [hfg, hreads, hhistory]
    exact hframe
  · exact hsame.imp_left fun heq => by rw [heq]
  · rw [hreads]
    exact h.reads.step hframe.action hsame
  · rw [hreads, hfg]
    exact h.place.step (b := backlog s) hframe.action hstep hsame

/-- The backlog does not see the places that hold no push. -/
theorem backlog_goto (hinp : liveWrite s' = liveWrite s) (hpushed : s'.pushed = s.pushed)
    (hexecuted : s'.executed = s.executed) (hfile : s'.file = s.file) (hslow : s'.slowSync = s.slowSync)
    (hpush : foregroundPush s'.foreground = foregroundPush s.foreground) :
    backlog s' = backlog s := by
  rw [backlog, backlog, pushOf, pushOf, hpush, hslow]
  exact backlogWith_congr hinp hpushed hexecuted hfile _

/-- The foreground thread goes to another place. -/
theorem Mixed.goto (h : Mixed E init s) (hinv : PipelineInv s')
    (hrest : s' = { s with
      preventActionMutation := s'.preventActionMutation
      writeSuspended := s'.writeSuspended
      handleToFileAction := s'.handleToFileAction
      foreground := s'.foreground })
    (hpush : foregroundPush s'.foreground = foregroundPush s.foreground)
    (hbytes : restOf s'.foreground = restOf s.foreground)
    (hplace : MixedPlace s.file (backlog s) s.action s.fileReads s'.foreground) : Mixed E init s' := by
  have hback : backlog s' = backlog s := by
    refine backlog_goto ?_ ?_ ?_ ?_ ?_ hpush <;> rw [hrest]
    rfl
  have hpending : pending s' = pending s := by rw [pending, pending, hback, hbytes]
  refine h.of_frame false hinv ⟨?_, ?_⟩ (Or.inl ?_) ?_ ?_ ?_
  · rw [hrest]
  · rw [hrest]
    exact .same
  · rw [hrest]
  · rw [hpending, hrest]
    exact h.stands
  · rw [hrest]
    exact h.reads
  · rw [hback]
    rw [hrest] at hplace ⊢
    exact hplace

end Efio.Proofs.Evio
