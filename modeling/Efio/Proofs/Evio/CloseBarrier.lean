import Efio.Proofs.Evio.DrainRun
import Efio.Proofs.Evio.EventOwner

/-!
# `Efio.Proofs.Evio.CloseBarrier`: what `ef_file_close` finds

`Drained` says that no accepted byte is left on its way. A run has three
parts: up to the dispatch of a close (`Draining`), up to the store of
`FILE_NOT_OPEN` (`Barred`), and after it (`Over`), where no further close
starts.

`drained_of_quietFree`: as long as a write action, and the record, are
freed only when nothing is on its way, `ef_file_close` calls `close` on a
drained file. `not_drained_of_stale` is a run in which a completion event of
a freed write action meets the next one: the batch of that one is dropped
before its task starts, and counted as complete.
-/

set_option autoImplicit false

namespace Efio.Proofs.Evio

open Efio.Lib
open Efio.Evio
open Efio.Evio.PipelineState
open Efio.Spec
open Efio.Spec.Backlog
open Efio.Proofs.Spec

variable {E : Env} {s s' : PipelineState}

/-! ### Definitions -/

/-- The step in which `ef_file_close` calls `close`. -/
def callsClose (s : PipelineState) : PipelineLabel → Prop
  | .closeJob i _ => s.fileCloses[i]? = some .start
  | .foreground _ _ => s.foreground = .closing .start
  | _ => False

/-- Every accepted byte has been executed, no task is queued, in flight or
about to be queued, the accumulator is empty and the page is clean. -/
structure Drained (s : PipelineState) : Prop where
  executed : payload s.executed = acceptedBytes s.history
  tasks : s.pushed = s.executed
  push : pushOf s = none
  accum : ∀ id a inp, s.action = .live id a → a.writeInp = some inp → inp.wAccum = []
  clean : s.file.buf.isDirty = false

/-- `ef_file_close` has not yet stored `FILE_NOT_OPEN`. -/
def beforeStore : CloseJob → Bool
  | .start | .publish _ => true
  | _ => false

/-- A close was accepted, and `ef_file_close` is queued or runs. -/
structure Barred (s : PipelineState) : Prop where
  inv : PipelineInv s
  closing : Working .operClose s.action
  accounted : (flow s).carried = acceptedBytes s.history
  clean : s.file.buf.isDirty = false
  reads : s.fileReads = []
  place : ∃ j, beforeStore j = true ∧
    ((s.fileCloses = [j] ∧ outsidePlace s.foreground = true) ∨
      (s.fileCloses = [] ∧ s.foreground = .closing j))

/-- The call is going to start `ef_file_close`. -/
def leadsToClose : ForegroundPc → Bool
  | .freeing _ (.closeSync _) | .freeing _ (.closeAlloc _) | .allocating _ _ (.close _)
  | .syncing _ (.close _) | .setting _ (.close _)
  | .closeTest _ | .closeDrop _ | .closeDispatch _ | .closing .start => true
  | _ => false

/-- The file is closed, and no close is under way that could start
`ef_file_close`. -/
structure Over (s : PipelineState) : Prop where
  inv : PipelineInv s
  status : s.status ≠ .fileOpen
  closes : CloseJob.start ∉ s.fileCloses
  place : leadsToClose s.foreground = false

/-! ### A step up to the dispatch -/

/-- The dispatch: nothing was carried over to the close action. -/
theorem Draining.closeDispatch (h : Draining s) {immediate closeFails : Bool}
    (hfg : s.foreground = .closeDispatch immediate) (hinv : PipelineInv s')
    (hstep : s.efCloseStep closeFails (.closeDispatch immediate) = .ok s') : Barred s' := by
  have hwork : Working .operClose s.action := by
    have hplace := h.place
    rwa [hfg] at hplace
  have hno : ¬ IsWrite s.action := by
    obtain ⟨id, a, hact, hcmd, -⟩ := hwork
    exact not_isWrite_of_live hact (by rw [hcmd]; exact fun h => by cases h)
  have hreads : s.fileReads = [] := by
    refine h.reads.nil ?_
    rintro ⟨id, a, hact, hcmd, -⟩
    obtain ⟨id', a', hact', hcmd', -⟩ := hwork
    obtain ⟨-, rfl⟩ := ActionPtr.live.inj (hact.symm.trans hact')
    cases hcmd.symm.trans hcmd'
  have haccounted : (flow s).carried = acceptedBytes s.history := by
    have haccounted := h.accounted
    rw [hfg] at haccounted
    exact (List.append_nil _).symm.trans haccounted
  have hpush : foregroundPush s.foreground = none := by
    rw [hfg]
    rfl
  simp only [efCloseStep] at hstep
  cases immediate with
  | true =>
    cases hstep
    refine ⟨hinv, hwork, ?_, h.clean hno, hreads, .start, rfl, Or.inr ⟨h.closes, rfl⟩⟩
    rw [← haccounted, flow, flow, pushOf, pushOf, hpush]
    rfl
  | false =>
    cases hstep
    refine ⟨hinv, hwork, ?_, h.clean hno, hreads, .start, rfl, Or.inl ⟨?_, rfl⟩⟩
    · rw [← haccounted, flow, flow, pushOf, pushOf, hpush]
      rfl
    · show s.fileCloses ++ [.start] = [.start]
      rw [h.closes]
      rfl

/-- A step of the foreground thread in a call. -/
theorem Draining.foreground (h : Draining s) {v : View} {closeFails : Bool} (hinv : PipelineInv s')
    (hstep : s.foregroundStep E closeFails v = .ok s') : Draining s' ∨ Barred s' := by
  unfold foregroundStep at hstep
  cases hfg : s.foreground with
  | idle =>
    simp only [hfg] at hstep
    cases hstep
    exact Or.inl h
  | pushing p k =>
    simp only [hfg] at hstep
    obtain ⟨⟨s₁, next⟩, hp, hok⟩ := bind_eq_ok.mp hstep
    cases hok
    exact Or.inl (h.push hfg hinv hp)
  | freeing p k =>
    simp only [hfg] at hstep
    obtain ⟨⟨s₁, next⟩, hp, hok⟩ := bind_eq_ok.mp hstep
    cases next <;> cases hok <;> exact Or.inl (h.free hfg hp hinv)
  | allocating p oper k =>
    simp only [hfg] at hstep
    obtain ⟨⟨s₁, next⟩, hp, hok⟩ := bind_eq_ok.mp hstep
    cases hok
    exact Or.inl (h.alloc hfg hinv hp)
  | setting p k =>
    simp only [hfg] at hstep
    obtain ⟨⟨s₁, next⟩, hp, hok⟩ := bind_eq_ok.mp hstep
    cases hok
    exact Or.inl (h.set hfg hinv hp)
  | syncing p k =>
    simp only [hfg] at hstep
    obtain ⟨⟨s₁, next⟩, hp, hok⟩ := bind_eq_ok.mp hstep
    cases hok
    exact Or.inl (h.syncCode E hfg hinv hp)
  | writeSuspend buf =>
    simp only [hfg] at hstep
    exact Or.inl (h.write hfg hinv hstep)
  | writeTest buf =>
    simp only [hfg] at hstep
    exact Or.inl (h.write hfg hinv hstep)
  | writeEnsure buf =>
    simp only [hfg] at hstep
    exact Or.inl (h.write hfg hinv hstep)
  | writeLoop buf done =>
    simp only [hfg] at hstep
    exact Or.inl (h.write hfg hinv hstep)
  | writeResume =>
    simp only [hfg] at hstep
    exact Or.inl (h.write hfg hinv hstep)
  | syncSuspend =>
    simp only [hfg] at hstep
    exact Or.inl (h.sync hfg hinv hstep)
  | syncFlush =>
    simp only [hfg] at hstep
    exact Or.inl (h.sync hfg hinv hstep)
  | syncResume =>
    simp only [hfg] at hstep
    exact Or.inl (h.sync hfg hinv hstep)
  | readSnapshot nbyte =>
    simp only [hfg, readStep] at hstep
    obtain ⟨_, -, hok⟩ := bind_eq_ok.mp hstep
    exact Or.inl (h.dispatch hfg hinv hok)
  | readTest nbyte po =>
    simp only [hfg] at hstep
    exact Or.inl (h.test hfg hinv hstep)
  | readDrop nbyte po =>
    simp only [hfg] at hstep
    exact Or.inl (h.drop hfg hinv hstep)
  | readBuffer nbyte po =>
    simp only [hfg] at hstep
    exact Or.inl (h.buffer hfg hinv hstep)
  | readFire nbyte =>
    simp only [hfg] at hstep
    exact Or.inl (h.fire hfg hinv hstep)
  | readEnqueue nbyte =>
    simp only [hfg] at hstep
    exact Or.inl (h.enqueue hfg hinv hstep)
  | closeTest immediate =>
    simp only [hfg] at hstep
    exact Or.inl (h.closeTest hfg hinv hstep)
  | closeDrop immediate =>
    simp only [hfg] at hstep
    exact Or.inl (h.closeDrop hfg hinv hstep)
  | closeDispatch immediate =>
    simp only [hfg] at hstep
    exact Or.inr (h.closeDispatch hfg hinv hstep)
  | closing p =>
    have hplace := h.place
    rw [hfg] at hplace
    exact hplace.elim

theorem Draining.threadStep (h : Draining s) {l : PipelineLabel} (hinv : PipelineInv s')
    (hrun : s.threadStep E l = some (.ok s')) : Draining s' ∨ Barred s' := by
  cases l with
  | call c v =>
    obtain ⟨hidle, hcall⟩ := threadStep_call hrun
    exact Or.inl (h.call hidle hinv hcall)
  | foreground v closeFails => exact h.foreground hinv (threadStep_foreground hrun).2
  | slowSync => exact Or.inl (h.slowSync E hinv hrun)
  | fileWriter => exact Or.inl (h.fileWriter E hinv hrun)
  | writeJob i =>
    simp only [PipelineState.threadStep] at hrun
    obtain ⟨j, s₁, next, hjob, hj, rfl⟩ := jobStep_eq_some hrun
    exact Or.inl (h.writeJob hjob hj hinv)
  | readJob i =>
    simp only [PipelineState.threadStep] at hrun
    obtain ⟨j, s₁, next, hjob, hj, rfl⟩ := jobStep_eq_some hrun
    exact Or.inl (h.readJob hjob hj hinv)
  | closeJob i closeFails => cases (threadStep_closeJob_nil h.closes i closeFails).symm.trans hrun

/-! ### Up to the store of `FILE_NOT_OPEN` -/

theorem Barred.not_isWrite (h : Barred s) : ¬ IsWrite s.action := by
  obtain ⟨id, a, hact, hcmd, -⟩ := h.closing
  exact not_isWrite_of_live hact (by rw [hcmd]; exact fun h => by cases h)

theorem Barred.drained (h : Barred s) : Drained s := by
  have hno := h.not_isWrite
  obtain ⟨hall, hpush, -⟩ := backlog_of_not_isWrite h.inv hno
  refine ⟨?_, hall, hpush, ?_, h.clean⟩
  · rw [← carried_of_not_isWrite h.inv hno]
    exact h.accounted
  · -- A close action has no accumulator.
    intro id a inp hact hinp
    refine absurd ⟨id, a, hact, ?_⟩ hno
    have htyped := h.inv.own.typed
    rw [hact] at htyped
    exact htyped (by rw [hinp]; rfl)

/-- A step that leaves the close where it is. -/
theorem Barred.of_same (h : Barred s) (hinv : PipelineInv s') (hstores : Stores false s.action s'.action)
    (hcarried : (flow s').carried = (flow s).carried) (hfile : s'.file = s.file)
    (hhistory : acceptedBytes s'.history = acceptedBytes s.history)
    (hreads : s'.fileReads = s.fileReads) (hcloses : s'.fileCloses = s.fileCloses)
    (hfg : s'.foreground = s.foreground ∨
      (outsidePlace s.foreground = true ∧ outsidePlace s'.foreground = true)) : Barred s' := by
  refine ⟨hinv, hstores.working h.closing, ?_, ?_, hreads.trans h.reads, ?_⟩
  · rw [hcarried, hhistory]
    exact h.accounted
  · rw [hfile]
    exact h.clean
  · obtain ⟨j, hj, hplace⟩ := h.place
    refine ⟨j, hj, ?_⟩
    rw [hcloses]
    obtain hfg | ⟨hout, hout'⟩ := hfg
    · rw [hfg]
      exact hplace
    · refine hplace.imp (fun hp => ⟨hp.1, hout'⟩) fun hp => ?_
      rw [hp.2] at hout
      cases hout

/-- The foreground thread in a call while the close is queued. -/
theorem Barred.goto (h : Barred s) (hinv : PipelineInv s')
    (hrest : s' = { s with
      writeSuspended := s'.writeSuspended
      foreground := s'.foreground
      history := s'.history })
    (hhistory : acceptedBytes s'.history = acceptedBytes s.history)
    (hout : outsidePlace s.foreground = true) (hout' : outsidePlace s'.foreground = true) :
    Barred s' := by
  have hnone : ∀ pc, outsidePlace pc = true → foregroundPush pc = none := by
    intro pc hpc
    cases pc <;> first | rfl | cases hpc
  have hflow : flow s' = flow s := by
    rw [flow, flow, pushOf, pushOf, hnone _ hout, hnone _ hout', hrest]
    rfl
  refine h.of_same hinv ?_ (by rw [hflow]) ?_ hhistory ?_ ?_ (Or.inr ⟨hout, hout'⟩)
  · rw [hrest]
    exact .same
  · rw [hrest]
  · rw [hrest]
  · rw [hrest]

/-- While the close is queued, no call gets far. -/
theorem Barred.call (h : Barred s) {v : View} {c : Call} (hidle : s.foreground = .idle)
    (hinv : PipelineInv s') (hstep : s.callStep E v c = .ok s') : Barred s' := by
  obtain ⟨id, a, hact, hcmd, hopen⟩ := h.closing
  have hout : outsidePlace s.foreground = true := by rw [hidle]; rfl
  cases c with
  | efWrite buf =>
    obtain rfl | ⟨-, rfl⟩ := callStep_efWrite hstep
    · exact h
    · exact h.goto hinv rfl rfl hout rfl
  | efSync =>
    obtain rfl | ⟨-, id', a', hact', hgo⟩ := callStep_efSync hstep
    · exact h
    · obtain ⟨-, rfl⟩ := ActionPtr.live.inj (hact.symm.trans hact')
      obtain ⟨hcomplete, -⟩ | ⟨hwrite, -⟩ := hgo
      · exact absurd hcomplete hopen
      · cases hcmd.symm.trans hwrite
  | efRead nbyte =>
    obtain ⟨ret, err, -, rfl⟩ | ⟨-, rfl⟩ := callStep_efRead hstep
    · exact h.goto hinv rfl (acceptedBytes_returned ..) hout rfl
    · exact h.goto hinv rfl rfl hout rfl
  | efClose immediate =>
    obtain rfl | ⟨-, ⟨hnull, -⟩ | ⟨id', a', hact', hclose, -⟩⟩ := callStep_efClose hstep
    · exact h
    · cases hnull.symm.trans hact
    · obtain ⟨-, rfl⟩ := ActionPtr.live.inj (hact.symm.trans hact')
      exact absurd hcmd hclose

/-- `ef_file_close` up to its store. -/
theorem closeStep_beforeStore {closeFails : Bool} {j : CloseJob} {next : Option CloseJob}
    (hbefore : beforeStore j = true) (hwork : Working .operClose s.action)
    (hstep : s.closeStep closeFails j = .ok (s', next)) :
    (∃ ret, next = some (.publish ret) ∧ s' = { s with file := s'.file, action := s'.action } ∧
        s'.file.buf.isDirty = s.file.buf.isDirty ∧ Stores false s.action s'.action) ∨
      (next = some .complete ∧ s' = { s with status := .fileNotOpen, action := s'.action }) := by
  obtain ⟨id, a, hact, hcmd, hopen⟩ := hwork
  cases j with
  | start =>
    obtain ⟨r, htest, hok⟩ := bind_eq_ok.mp hstep
    obtain ⟨-, ⟨rfl, hnull⟩ | ⟨id', a', rfl, hact'⟩⟩ := testAction_eq_ok htest
    · cases hnull.symm.trans hact
    · cases hok
      refine Or.inl ⟨_, rfl, rfl, rfl, .store _ hact' rfl (fun h => h) fun _ hstatus => ?_⟩
      cases hstatus
  | publish ret =>
    obtain ⟨⟨id', a'⟩, -, hok⟩ := bind_eq_ok.mp hstep
    cases hok
    exact Or.inr ⟨rfl, rfl⟩
  | _ => cases hbefore

/-- A step of `ef_file_close`, wherever it runs. -/
theorem Barred.close (h : Barred s) {closeFails : Bool} {j : CloseJob} {next : Option CloseJob}
    {s₁ : PipelineState} (hbefore : beforeStore j = true)
    (hstep : s.closeStep closeFails j = .ok (s₁, next)) (hinv : PipelineInv s')
    (hrest : s' = { s₁ with fileCloses := s'.fileCloses, foreground := s'.foreground })
    (hplace : ∀ q, next = some q → (s'.fileCloses = [q] ∧ outsidePlace s'.foreground = true) ∨
      (s'.fileCloses = [] ∧ s'.foreground = .closing q)) : Barred s' ∨ Over s' := by
  have hact : s'.action = s₁.action := by rw [hrest]
  obtain ⟨ret, rfl, hs, hdirty, hstores⟩ | ⟨rfl, hs⟩ := closeStep_beforeStore hbefore h.closing hstep
  · refine Or.inl ⟨hinv, ?_, ?_, ?_, ?_, .publish ret, rfl, hplace _ rfl⟩
    · rw [hact]
      exact hstores.working h.closing
    · have hno : ¬ IsWrite s'.action := by
        rw [hact]
        exact fun hwrite => h.not_isWrite (hstores.isWrite hwrite)
      rw [carried_of_not_isWrite hinv hno, hrest]
      show payload s₁.executed = acceptedBytes s₁.history
      rw [hs]
      exact h.drained.executed
    · rw [show s'.file = s₁.file by rw [hrest], hdirty]
      exact h.clean
    · rw [show s'.fileReads = s₁.fileReads by rw [hrest], hs]
      exact h.reads
  · refine Or.inr ⟨hinv, ?_, ?_, ?_⟩
    · rw [show s'.status = s₁.status by rw [hrest], hs]
      exact fun hopen => by cases hopen
    · obtain ⟨hlist, -⟩ | ⟨hlist, -⟩ := hplace _ rfl <;> rw [hlist] <;> simp
    · obtain ⟨-, hout⟩ | ⟨-, hfg⟩ := hplace _ rfl
      · generalize s'.foreground = pc at hout
        cases pc <;> first | rfl | cases hout
      · rw [hfg]
        rfl

theorem Barred.foreground (h : Barred s) {v : View} {closeFails : Bool} (hinv : PipelineInv s')
    (hstep : s.foregroundStep E closeFails v = .ok s') : Barred s' ∨ Over s' := by
  obtain ⟨j, hbefore, ⟨hcloses, hout⟩ | ⟨hcloses, hfg⟩⟩ := h.place
  · refine Or.inl ?_
    obtain ⟨id, a, hact, hcmd, hopen⟩ := h.closing
    unfold foregroundStep at hstep
    cases hfg : s.foreground with
    | idle =>
      simp only [hfg] at hstep
      cases hstep
      exact h
    | writeSuspend buf =>
      simp only [hfg] at hstep
      obtain ⟨_, -, hok⟩ := bind_eq_ok.mp hstep
      cases hok
      refine h.goto hinv rfl rfl hout ?_
      dsimp only
      split <;> rfl
    | writeTest buf =>
      simp only [hfg] at hstep
      obtain ⟨r, htest, hok⟩ := bind_eq_ok.mp hstep
      obtain ⟨-, ⟨rfl, hnull⟩ | ⟨id', a', rfl, hact'⟩⟩ := testAction_eq_ok htest
      · cases hnull.symm.trans hact
      · obtain ⟨rfl, rfl⟩ := ActionPtr.live.inj (hact.symm.trans hact')
        simp only [hopen, hcmd, if_false, ne_eq, reduceCtorEq, not_false_eq_true, if_true] at hok
        cases hok
        exact h.goto hinv rfl rfl hout rfl
    | writeResume =>
      simp only [hfg] at hstep
      obtain ⟨_, -, hok⟩ := bind_eq_ok.mp hstep
      simp only at hok
      split at hok <;> cases hok
      exact h.goto hinv rfl rfl hout rfl
    | readSnapshot nbyte =>
      simp only [hfg, readStep] at hstep
      obtain ⟨_, -, hstep⟩ := bind_eq_ok.mp hstep
      obtain ⟨r, htest, hok⟩ := bind_eq_ok.mp hstep
      obtain ⟨-, ⟨rfl, hnull⟩ | ⟨id', a', rfl, hact'⟩⟩ := testAction_eq_ok htest
      · cases hnull.symm.trans hact
      · obtain ⟨rfl, rfl⟩ := ActionPtr.live.inj (hact.symm.trans hact')
        simp only [hopen, hcmd, ne_eq, not_false_eq_true, if_true] at hok
        cases hok
        exact h.goto hinv rfl (acceptedBytes_returned ..) hout rfl
    | _ =>
      rw [hfg] at hout
      cases hout
  · unfold foregroundStep at hstep
    simp only [hfg] at hstep
    obtain ⟨⟨s₁, next⟩, hclose, hok⟩ := bind_eq_ok.mp hstep
    cases hok
    refine h.close hbefore hclose hinv rfl ?_
    rintro q rfl
    refine Or.inr ⟨?_, rfl⟩
    obtain ⟨ret, -, hs, -⟩ | ⟨-, hs⟩ := closeStep_beforeStore hbefore h.closing hclose <;>
    · show s₁.fileCloses = []
      rw [hs]
      exact hcloses

theorem Barred.slowSync (h : Barred s) (hinv : PipelineInv s')
    (hstep : s.slowSyncStep = some (.ok s')) : Barred s' := by
  have hlocks' := hinv.locks
  obtain ⟨hslow, rfl⟩ | ⟨p, s₁, next, hslow, hsync, rfl⟩ := slowSyncStep_cases hstep
  · have hflow : flow { s with slowSync := some .lockHandle } = flow s := by
      rw [flow, flow, pushOf_begin hslow]
      rfl
    exact h.of_same hinv .same (by rw [hflow]) rfl rfl rfl rfl (Or.inl rfl)
  · obtain ⟨hpush, hother⟩ := h.inv.locks.slowSync_push hslow
    have hflow : FlowInv (flowWith s ((syncPush p).or (foregroundPush s.foreground))) :=
      hpush ▸ h.inv.flow
    have hframe := (syncStep_frame (isWrite_of_syncPush hflow) hsync).1
    have hpush' : pushOf { s₁ with slowSync := next }
        = (next.bind syncPush).or (foregroundPush s.foreground) := by
      rw [hlocks'.push_comm]
      show _ = (next.bind syncPush).or (foregroundPush s.foreground)
      rw [← hframe.foreground]
    refine h.of_same hinv hframe.action ?_ ?_ ?_ ?_ ?_ (Or.inl ?_)
    · rw [flow, flow, hpush, hpush', ← syncStep_carried hother hflow hsync]
      rfl
    · rw [hframe.rest]
    · rw [hframe.rest]
    · rw [hframe.rest]
    · rw [hframe.rest]
    · rw [hframe.rest]

theorem Barred.threadStep (h : Barred s) {l : PipelineLabel} (hinv : PipelineInv s')
    (hrun : s.threadStep E l = some (.ok s')) : Barred s' ∨ Over s' := by
  obtain ⟨hqueue, hwriter, hjobs, -⟩ := (h.inv.flow.quiet (liveWrite_of_not_isWrite h.not_isWrite)).1
  change s.fileWriterQueue = [] at hqueue
  change s.fileWriter = .idle at hwriter
  change s.fileWrites = [] at hjobs
  cases l with
  | call c v =>
    obtain ⟨hidle, hcall⟩ := threadStep_call hrun
    exact Or.inl (h.call hidle hinv hcall)
  | foreground v closeFails => exact h.foreground hinv (threadStep_foreground hrun).2
  | slowSync => exact Or.inl (h.slowSync hinv hrun)
  | fileWriter =>
    simp only [PipelineState.threadStep, fileWriterStep, hwriter, hqueue] at hrun
    cases hrun
  | writeJob i =>
    simp only [PipelineState.threadStep] at hrun
    obtain ⟨j, s₁, next, hjob, -⟩ := jobStep_eq_some hrun
    rw [hjobs] at hjob
    cases hjob
  | readJob i => cases (threadStep_readJob_nil h.reads i).symm.trans hrun
  | closeJob i closeFails =>
    simp only [PipelineState.threadStep] at hrun
    obtain ⟨j, s₁, next, hjob, hj, rfl⟩ := jobStep_eq_some hrun
    obtain ⟨j', hbefore, ⟨hcloses, hout⟩ | ⟨hcloses, -⟩⟩ := h.place
    · rw [hcloses] at hjob hinv ⊢
      obtain ⟨rfl, rfl⟩ : i = 0 ∧ j = j' := by
        cases i <;> cases hjob
        exact ⟨rfl, rfl⟩
      refine h.close hbefore hj hinv rfl ?_
      rintro q rfl
      refine Or.inl ⟨rfl, ?_⟩
      obtain ⟨ret, -, hs, -⟩ | ⟨-, hs⟩ := closeStep_beforeStore hbefore h.closing hj <;>
      · show outsidePlace s₁.foreground = true
        rw [hs]
        exact hout
    · rw [hcloses] at hjob
      cases hjob

/-! ### After the store -/

/-- A step that keeps the status and the closing tasks, to a place that
starts no close. -/
structure Onward (s s' : PipelineState) : Prop where
  status : s'.status = s.status
  closes : s'.fileCloses = s.fileCloses
  place : leadsToClose s'.foreground = false

theorem Over.onward (h : Over s) (hinv : PipelineInv s') (hon : Onward s s') : Over s' :=
  ⟨hinv, hon.status ▸ h.status, hon.closes ▸ h.closes, hon.place⟩

theorem Frame.onward {completes : Bool} {s₁ : PipelineState} {pc : ForegroundPc}
    (hframe : Frame completes s s₁) (hpc : leadsToClose pc = false) :
    Onward s { s₁ with foreground := pc } :=
  ⟨show s₁.status = s.status by rw [hframe.rest], hframe.closes, hpc⟩

theorem callStep_onward {v : View} {c : Call} (hstatus : s.status ≠ .fileOpen)
    (hidle : s.foreground = .idle) (hstep : s.callStep E v c = .ok s') : Onward s s' := by
  have hsame : Onward s s := ⟨rfl, rfl, by rw [hidle]; rfl⟩
  cases c with
  | efRead nbyte => obtain ⟨ret, err, -, rfl⟩ | ⟨-, rfl⟩ := callStep_efRead hstep <;> exact ⟨rfl, rfl, rfl⟩
  | efWrite buf => exact (callStep_efWrite hstep).resolve_right (fun h => hstatus h.1) ▸ hsame
  | efSync => exact (callStep_efSync hstep).resolve_right (fun h => hstatus h.1) ▸ hsame
  | efClose immediate => exact (callStep_efClose hstep).resolve_right (fun h => hstatus h.1) ▸ hsame

theorem writeStep_onward {pc : ForegroundPc} (hfg : s.foreground = pc)
    (hplace : leadsToClose pc = false) (hstep : s.writeStep E pc = .ok s') : Onward s s' := by
  unfold writeStep at hstep
  split at hstep
  · obtain ⟨_, -, hok⟩ := bind_eq_ok.mp hstep
    cases hok
    refine ⟨rfl, rfl, ?_⟩
    dsimp only
    split <;> rfl
  · obtain ⟨r, -, hok⟩ := bind_eq_ok.mp hstep
    split at hok
    · split at hok
      · cases hok
        exact ⟨rfl, rfl, rfl⟩
      · split at hok <;> cases hok <;> exact ⟨rfl, rfl, rfl⟩
    · cases hok
      exact ⟨rfl, rfl, rfl⟩
  · obtain ⟨_, -, hok⟩ := bind_eq_ok.mp hstep
    cases hok
    refine ⟨rfl, rfl, ?_⟩
    dsimp only
    split <;> rfl
  · split at hstep
    · cases hstep
      exact ⟨rfl, rfl, rfl⟩
    · obtain ⟨⟨id, a, inp⟩, -, hok⟩ := bind_eq_ok.mp hstep
      simp only at hok
      split at hok
      · cases hok
      · split at hok <;> cases hok <;> exact ⟨rfl, rfl, rfl⟩
  · obtain ⟨_, -, hok⟩ := bind_eq_ok.mp hstep
    simp only at hok
    split at hok <;> cases hok
    exact ⟨rfl, rfl, rfl⟩
  · cases hstep
    exact ⟨rfl, rfl, by rw [hfg]; exact hplace⟩

theorem readDispatch_onward {nbyte : Nat} {po : Int} (hstep : s.readDispatch nbyte po = .ok s') :
    Onward s s' := by
  obtain ⟨r, -, hok⟩ := bind_eq_ok.mp hstep
  split at hok
  · cases hok
    exact ⟨rfl, rfl, rfl⟩
  · split at hok
    · split at hok <;> cases hok <;> exact ⟨rfl, rfl, rfl⟩
    · split at hok
      · cases hok
        exact ⟨rfl, rfl, rfl⟩
      · split at hok
        · cases hok
          exact ⟨rfl, rfl, rfl⟩
        · split at hok <;> cases hok <;> exact ⟨rfl, rfl, rfl⟩
    · cases hok
      exact ⟨rfl, rfl, rfl⟩
    · split at hok <;> cases hok <;> exact ⟨rfl, rfl, rfl⟩
    · split at hok <;> cases hok <;> exact ⟨rfl, rfl, rfl⟩

theorem readStep_onward {v : View} {pc : ForegroundPc} (hfg : s.foreground = pc)
    (hplace : leadsToClose pc = false) (hstep : s.readStep E v pc = .ok s') : Onward s s' := by
  unfold readStep at hstep
  split at hstep
  · obtain ⟨_, -, hok⟩ := bind_eq_ok.mp hstep
    exact readDispatch_onward hok
  · obtain ⟨⟨id, a⟩, -, hok⟩ := bind_eq_ok.mp hstep
    simp only at hok
    split at hok <;> cases hok <;> exact ⟨rfl, rfl, rfl⟩
  · obtain ⟨r, -, hok⟩ := bind_eq_ok.mp hstep
    split at hok
    · split at hok <;> cases hok <;> exact ⟨rfl, rfl, rfl⟩
    · cases hok
      exact ⟨rfl, rfl, rfl⟩
  · obtain ⟨_, -, hok⟩ := bind_eq_ok.mp hstep
    split at hok
    · obtain ⟨r, -, hok⟩ := bind_eq_ok.mp hok
      split at hok <;> cases hok <;> exact ⟨rfl, rfl, rfl⟩
    · obtain ⟨⟨file, ret, err, bytes⟩, -, hok⟩ := bind_eq_ok.mp hok
      cases hok
      exact ⟨rfl, rfl, rfl⟩
  · obtain ⟨_, -, hok⟩ := bind_eq_ok.mp hstep
    split at hok
    · cases hok
    · split at hok <;> cases hok
      exact ⟨rfl, rfl, rfl⟩
  · obtain ⟨_, -, hok⟩ := bind_eq_ok.mp hstep
    cases hok
    exact ⟨rfl, rfl, rfl⟩
  · cases hstep
    exact ⟨rfl, rfl, by rw [hfg]; exact hplace⟩

/-- The steps of `ef_sync`. Its push needs a write action. -/
theorem efSyncStep_onward {pc : ForegroundPc} (hfg : s.foreground = pc)
    (hplace : leadsToClose pc = false) (hstep : s.efSyncStep pc = .ok s') : Onward s s' := by
  unfold efSyncStep at hstep
  split at hstep
  · obtain ⟨_, -, hok⟩ := bind_eq_ok.mp hstep
    cases hok
    refine ⟨rfl, rfl, ?_⟩
    dsimp only
    split <;> rfl
  · obtain ⟨⟨s₁, p⟩, hsync, hok⟩ := bind_eq_ok.mp hstep
    cases hok
    refine (lowEfSync_frame hsync).1.onward ?_
    cases p <;> rfl
  · obtain ⟨_, -, hok⟩ := bind_eq_ok.mp hstep
    simp only at hok
    split at hok <;> cases hok
    exact ⟨rfl, rfl, rfl⟩
  · cases hstep
    exact ⟨rfl, rfl, by rw [hfg]; exact hplace⟩

/-- A step of `ef_file_close` starts no other one. -/
theorem closeStep_onward {closeFails : Bool} {j : CloseJob} {next : Option CloseJob}
    (hstep : s.closeStep closeFails j = .ok (s', next)) :
    (s.status ≠ .fileOpen → s'.status ≠ .fileOpen) ∧ s'.fileCloses = s.fileCloses ∧
      s'.foreground = s.foreground ∧ next ≠ some .start := by
  cases j with
  | start =>
    obtain ⟨r, -, hok⟩ := bind_eq_ok.mp hstep
    split at hok <;> cases hok <;> exact ⟨id, rfl, rfl, fun h => by cases h⟩
  | publish ret =>
    obtain ⟨_, -, hok⟩ := bind_eq_ok.mp hstep
    cases hok
    exact ⟨fun _ h => by (cases h), rfl, rfl, fun h => by cases h⟩
  | complete =>
    obtain ⟨_, -, hok⟩ := bind_eq_ok.mp hstep
    cases hok
    exact ⟨id, rfl, rfl, fun h => by cases h⟩
  | closeStatus =>
    obtain ⟨_, -, hok⟩ := bind_eq_ok.mp hstep
    split at hok
    · cases hok
      exact ⟨id, rfl, rfl, fun h => by cases h⟩
    · obtain ⟨r, -, hok⟩ := bind_eq_ok.mp hok
      split at hok
      · cases hok
        exact ⟨id, rfl, rfl, fun h => by cases h⟩
      · split at hok
        · cases hok
          exact ⟨id, rfl, rfl, fun h => by cases h⟩
        · split at hok <;> cases hok <;> exact ⟨id, rfl, rfl, fun h => by cases h⟩
  | lockHandle =>
    cases hstep
    refine ⟨id, rfl, rfl, ?_⟩
    split <;> exact fun h => by cases h
  | cleanup =>
    simp only [closeStep] at hstep
    split at hstep
    · cases hstep
    · obtain ⟨_, -, hok⟩ := bind_eq_ok.mp hstep
      cases hok
      refine ⟨id, rfl, rfl, ?_⟩
      split <;> exact fun h => by cases h
  | freeing p k =>
    obtain ⟨⟨s₁, q⟩, hfree, hok⟩ := bind_eq_ok.mp hstep
    have hrest := freeStep_rest hfree
    have hsame : (s.status ≠ .fileOpen → s₁.status ≠ .fileOpen) ∧ s₁.fileCloses = s.fileCloses ∧
        s₁.foreground = s.foreground := by
      rw [hrest]
      exact ⟨id, rfl, rfl⟩
    cases q <;> cases k <;> cases hok <;>
      exact ⟨hsame.1, hsame.2.1, hsame.2.2, fun h => by cases h⟩
  | freeRecord =>
    obtain ⟨_, -, hok⟩ := bind_eq_ok.mp hstep
    cases hok
    exact ⟨id, rfl, rfl, fun h => by cases h⟩
  | clearSlot =>
    cases hstep
    exact ⟨id, rfl, rfl, fun h => by cases h⟩
  | unlockHandle =>
    cases hstep
    exact ⟨id, rfl, rfl, fun h => by cases h⟩

theorem Over.foreground (h : Over s) {v : View} {closeFails : Bool} (hinv : PipelineInv s')
    (hstep : s.foregroundStep E closeFails v = .ok s') : Over s' := by
  have hplace := h.place
  unfold foregroundStep at hstep
  cases hfg : s.foreground with
  | idle =>
    simp only [hfg] at hstep
    cases hstep
    exact h
  | pushing p k =>
    simp only [hfg] at hstep
    obtain ⟨⟨s₁, next⟩, hp, hok⟩ := bind_eq_ok.mp hstep
    cases hok
    have hflow : FlowInv (flowWith s (some p)) := by
      have hpush : pushOf s = some p := by
        rw [pushOf, hfg]
        rfl
      exact hpush ▸ h.inv.flow
    refine h.onward hinv ((pushStep_frame (isWrite_of_push hflow (by simp)) hp).1.onward ?_)
    cases next <;> cases k <;> rfl
  | freeing p k =>
    rw [hfg] at hplace
    simp only [hfg] at hstep
    obtain ⟨⟨s₁, next⟩, hp, hok⟩ := bind_eq_ok.mp hstep
    have hrest := freeStep_rest hp
    refine h.onward hinv ?_
    rw [hrest] at hok
    cases next <;> cases k <;> first | (cases hok; exact ⟨rfl, rfl, rfl⟩) | cases hplace
  | allocating p oper k =>
    rw [hfg] at hplace
    simp only [hfg] at hstep
    obtain ⟨⟨s₁, next⟩, hp, hok⟩ := bind_eq_ok.mp hstep
    have hrest := allocStep_rest hp
    refine h.onward hinv ?_
    rw [hrest] at hok
    cases next <;> cases k <;> first | (cases hok; exact ⟨rfl, rfl, rfl⟩) | cases hplace
  | setting p k =>
    rw [hfg] at hplace
    simp only [hfg] at hstep
    obtain ⟨⟨s₁, next⟩, hp, hok⟩ := bind_eq_ok.mp hstep
    cases hok
    refine h.onward hinv ((setStep_frame hp).1.onward ?_)
    cases next <;> cases k <;> first | rfl | cases hplace
  | syncing p k =>
    rw [hfg] at hplace
    simp only [hfg] at hstep
    obtain ⟨⟨s₁, next⟩, hp, hok⟩ := bind_eq_ok.mp hstep
    cases hok
    obtain ⟨hpush, -⟩ := h.inv.locks.syncing_push hfg
    have hflow : FlowInv (flowWith s ((syncPush p).or (s.slowSync.bind syncPush))) :=
      hpush ▸ h.inv.flow
    refine h.onward hinv ((syncStep_frame (isWrite_of_syncPush hflow) hp).1.onward ?_)
    cases next <;> cases k <;> first | rfl | cases hplace
  | writeSuspend buf =>
    simp only [hfg] at hstep
    exact h.onward hinv (writeStep_onward hfg rfl hstep)
  | writeTest buf =>
    simp only [hfg] at hstep
    exact h.onward hinv (writeStep_onward hfg rfl hstep)
  | writeEnsure buf =>
    simp only [hfg] at hstep
    exact h.onward hinv (writeStep_onward hfg rfl hstep)
  | writeLoop buf done =>
    simp only [hfg] at hstep
    exact h.onward hinv (writeStep_onward hfg rfl hstep)
  | writeResume =>
    simp only [hfg] at hstep
    exact h.onward hinv (writeStep_onward hfg rfl hstep)
  | syncSuspend =>
    simp only [hfg] at hstep
    exact h.onward hinv (efSyncStep_onward hfg rfl hstep)
  | syncFlush =>
    simp only [hfg] at hstep
    exact h.onward hinv (efSyncStep_onward hfg rfl hstep)
  | syncResume =>
    simp only [hfg] at hstep
    exact h.onward hinv (efSyncStep_onward hfg rfl hstep)
  | readSnapshot nbyte =>
    simp only [hfg] at hstep
    exact h.onward hinv (readStep_onward hfg rfl hstep)
  | readTest nbyte po =>
    simp only [hfg] at hstep
    exact h.onward hinv (readStep_onward hfg rfl hstep)
  | readDrop nbyte po =>
    simp only [hfg] at hstep
    exact h.onward hinv (readStep_onward hfg rfl hstep)
  | readBuffer nbyte po =>
    simp only [hfg] at hstep
    exact h.onward hinv (readStep_onward hfg rfl hstep)
  | readFire nbyte =>
    simp only [hfg] at hstep
    exact h.onward hinv (readStep_onward hfg rfl hstep)
  | readEnqueue nbyte =>
    simp only [hfg] at hstep
    exact h.onward hinv (readStep_onward hfg rfl hstep)
  | closing p =>
    simp only [hfg] at hstep
    obtain ⟨⟨s₁, next⟩, hclose, hok⟩ := bind_eq_ok.mp hstep
    cases hok
    obtain ⟨hstatus, hcloses, -, hnext⟩ := closeStep_onward hclose
    refine ⟨hinv, hstatus h.status, hcloses ▸ h.closes, ?_⟩
    cases next with
    | none => rfl
    | some q => cases q <;> first | rfl | exact absurd rfl hnext
  | _ =>
    rw [hfg] at hplace
    cases hplace

theorem Over.threadStep (h : Over s) {l : PipelineLabel} (hinv : PipelineInv s')
    (hrun : s.threadStep E l = some (.ok s')) : Over s' := by
  cases l with
  | call c v =>
    obtain ⟨hidle, hcall⟩ := threadStep_call hrun
    exact h.onward hinv (callStep_onward h.status hidle hcall)
  | foreground v closeFails => exact h.foreground hinv (threadStep_foreground hrun).2
  | slowSync =>
    simp only [PipelineState.threadStep, slowSyncStep] at hrun
    cases hslow : s.slowSync with
    | none =>
      simp only [hslow] at hrun
      split at hrun <;> cases hrun
      exact ⟨hinv, h.status, h.closes, h.place⟩
    | some p =>
      simp only [hslow, Option.some.injEq] at hrun
      obtain ⟨⟨s₁, next⟩, hsync, hok⟩ := bind_eq_ok.mp hrun
      cases hok
      obtain ⟨hpush, -⟩ := h.inv.locks.slowSync_push hslow
      have hflow : FlowInv (flowWith s ((syncPush p).or (foregroundPush s.foreground))) :=
        hpush ▸ h.inv.flow
      have hframe := (syncStep_frame (isWrite_of_syncPush hflow) hsync).1
      refine ⟨hinv, ?_, ?_, ?_⟩ <;> dsimp only <;> rw [hframe.rest]
      · exact h.status
      · exact h.closes
      · exact h.place
  | fileWriter =>
    have hframe := (fileWriterStep_frame hrun).1
    refine ⟨hinv, ?_, ?_, ?_⟩ <;> rw [hframe.rest]
    · exact h.status
    · exact h.closes
    · exact h.place
  | writeJob i =>
    simp only [PipelineState.threadStep] at hrun
    obtain ⟨j, s₁, next, hjob, hj, rfl⟩ := jobStep_eq_some hrun
    have hframe := (writeJobStep_frame hj).1
    refine ⟨hinv, ?_, ?_, ?_⟩ <;> dsimp only <;> rw [hframe.rest]
    · exact h.status
    · exact h.closes
    · exact h.place
  | readJob i =>
    simp only [PipelineState.threadStep] at hrun
    obtain ⟨j, s₁, next, hjob, hj, rfl⟩ := jobStep_eq_some hrun
    have hframe := (readJobStep_frame hj).1
    refine ⟨hinv, ?_, ?_, ?_⟩ <;> dsimp only <;> rw [hframe.rest]
    · exact h.status
    · exact h.closes
    · exact h.place
  | closeJob i closeFails =>
    simp only [PipelineState.threadStep] at hrun
    obtain ⟨j, s₁, next, hjob, hj, rfl⟩ := jobStep_eq_some hrun
    obtain ⟨hstatus, hcloses, hfg, hnext⟩ := closeStep_onward hj
    refine ⟨hinv, hstatus h.status, ?_, ?_⟩
    · intro hmem
      cases next with
      | none => exact h.closes (List.mem_of_mem_eraseIdx hmem)
      | some q =>
        obtain hmem | rfl := List.mem_or_eq_of_mem_set hmem
        · exact h.closes hmem
        · exact hnext rfl
    · show leadsToClose s₁.foreground = false
      rw [hfg]
      exact h.place

/-! ### The result -/

/-- The three parts of a run. -/
def Barrier (s : PipelineState) : Prop := Draining s ∨ Barred s ∨ Over s

theorem Barrier.fault (h : Barrier s) (e : Fault) : Barrier { s with fault := some e } := by
  have hinv : ∀ {t : PipelineState}, PipelineInv t → PipelineInv { t with fault := some e } :=
    fun h => ⟨h.flow, h.fits, h.locks, ⟨h.own.setNull, h.own.null, h.own.typed⟩⟩
  obtain h | h | h := h
  · exact Or.inl ⟨h.live, h.slot, h.status, h.closes, hinv h.inv, h.writable, h.clean, h.accounted,
      h.reads, h.place⟩
  · exact Or.inr (Or.inl ⟨hinv h.inv, h.closing, h.accounted, h.clean, h.reads, h.place⟩)
  · exact Or.inr (Or.inr ⟨hinv h.inv, h.status, h.closes, h.place⟩)

theorem Barrier.inv (h : Barrier s) : PipelineInv s := by
  obtain h | h | h := h
  · exact h.inv
  · exact h.inv
  · exact h.inv

theorem Barrier.step (h : Barrier s) {l : PipelineLabel} (hquiet : QuietFree s l)
    (hstep : PipelineState.step E l s = some s') : Barrier s' := by
  have hinv := h.inv.step hquiet hstep
  obtain ⟨-, hrun | ⟨e, -, rfl⟩⟩ := step_eq_some hstep
  · obtain h | h | h := h
    · exact (h.threadStep hinv hrun).imp_right Or.inl
    · exact Or.inr (h.threadStep hinv hrun)
    · exact Or.inr (Or.inr (h.threadStep hinv hrun))
  · exact h.fault e

/-- Only the part after the dispatch calls `close`. -/
theorem Barrier.drained (h : Barrier s) {l : PipelineLabel} (hclose : callsClose s l) : Drained s := by
  obtain h | h | h := h
  · cases l with
    | closeJob i closeFails =>
      have hjob : s.fileCloses[i]? = some .start := hclose
      rw [h.closes] at hjob
      cases hjob
    | foreground v closeFails =>
      have hplace := h.place
      rw [show s.foreground = .closing .start from hclose] at hplace
      exact hplace.elim
    | _ => exact hclose.elim
  · exact h.drained
  · cases l with
    | closeJob i closeFails => exact absurd (List.mem_of_getElem? hclose) h.closes
    | foreground v closeFails =>
      have hplace := h.place
      rw [show s.foreground = .closing .start from hclose] at hplace
      cases hplace
    | _ => exact hclose.elim

theorem barrier_opened {oflag : OFlag} (hwritable : oflag.has (O_RDWR ||| O_WRONLY))
    (data : List UInt8) (collected : Bool) : Barrier (opened (efFileOpen E oflag data) collected) := by
  have hfile := efFileOpen_frame (E := E) oflag data
  rw [openOflag_eq hwritable] at hfile
  refine Or.inl ⟨rfl, rfl, rfl, rfl, pipelineInv_opened _ _, ?_, fun _ => hfile.2, ?_, Or.inl rfl, ?_⟩
  · show (efFileOpen E oflag data).oflag.has _
    rw [hfile.1]
    exact hwritable
  · cases collected <;> rfl
  · cases collected
    · exact incomplete_of_not_isWrite (not_isWrite_of_live rfl fun h => by cases h)
    · exact incomplete_of_not_isWrite (not_isWrite_of_null rfl)

/-- In every run of the four calls on a file open for writing in which a
write action, and the record, are freed only when nothing is on its way,
`ef_file_close` calls `close` on a drained file. -/
theorem drained_of_quietFree {oflag : OFlag} (hwritable : oflag.has (O_RDWR ||| O_WRONLY))
    {data : List UInt8} {collected : Bool}
    (h : Reach (PipelineState.step E) QuietFree (opened (efFileOpen E oflag data) collected) s)
    {l : PipelineLabel} (hclose : callsClose s l) : Drained s := by
  have hbarrier : Barrier s :=
    h.invariant (barrier_opened hwritable data collected) fun _ _ _ hs hok hstep => hs.step hok hstep
  exact hbarrier.drained hclose

set_option maxRecDepth 4000 in
/-- A byte is written; `ef_close` flushes it, waits for its tasks, and
queues `ef_file_close`. -/
theorem drained_of_quietFree_sample :
    ∃ s : PipelineState, s.fileCloses = [.start] ∧ payload s.executed = [9] ∧ Drained s :=
  ⟨_, rfl, rfl, @drained_of_quietFree sampleEnv _ O_RDWR (by decide) [1, 2, 3] true
    (Reach.of_run .init
      ([.call (.efWrite [9]) noView] ++ foregroundSteps 9 ++ [.call (.efClose false) noView] ++
        foregroundSteps 18 ++ List.replicate 8 .fileWriter ++ writeJobSteps 6 ++
        List.replicate 4 .fileWriter ++ foregroundSteps 13) rfl) (.closeJob 0 false) (by rfl)⟩

/-- The run of `not_drained_of_stale`. `ef_write` of one byte and `ef_read`
up to the end of its flush, with all tasks and events of the flush;
`slow_sync` up to its own `fsync`; `ef_read` completes the action and goes
to free it; `slow_sync` queues the `fsync` and its task starts; `ef_read`
frees the action and returns. `ef_write` of a page, whose batch is collected
and gets its task; the old task and its completion event; the new task and
its event. `ef_close` with its flush. -/
def staleCompletion : List PipelineLabel :=
  [.call (.efWrite [9]) noView] ++ foregroundSteps 9 ++ [.call (.efRead 1) noView] ++
    foregroundSteps 19 ++ List.replicate 8 .fileWriter ++ writeJobSteps 6 ++
    List.replicate 4 .fileWriter ++ List.replicate 8 .slowSync ++ foregroundSteps 5 ++
    List.replicate 7 .slowSync ++ List.replicate 5 .fileWriter ++ writeJobSteps 1 ++
    foregroundSteps 5 ++ [.call (.efWrite [1, 2, 3, 4]) noView] ++ foregroundSteps 13 ++
    List.replicate 5 .fileWriter ++ writeJobSteps 4 ++ List.replicate 4 .fileWriter ++
    writeJobSteps 4 ++ List.replicate 4 .fileWriter ++ [.call (.efClose false) noView] ++
    foregroundSteps 14 ++ List.replicate 5 .fileWriter ++ writeJobSteps 5 ++
    List.replicate 4 .fileWriter ++ foregroundSteps 13

set_option maxRecDepth 8000 in
/-- The accepted page never reaches `ef_one_single_write`. -/
theorem not_drained_of_stale :
    ∃ s : PipelineState,
      Reach (PipelineState.step sampleEnv) (fun _ _ => True)
        (opened (efFileOpen sampleEnv O_RDWR [1, 2, 3]) true) s ∧
      callsClose s (.closeJob 0 false) ∧ acceptedBytes s.history = [9, 1, 2, 3, 4] ∧
      payload s.executed = [9] ∧ ¬ Drained s := by
  refine ⟨_, Reach.of_run .init staleCompletion rfl, rfl, rfl, rfl, fun h => ?_⟩
  cases h.executed

end Efio.Proofs.Evio
