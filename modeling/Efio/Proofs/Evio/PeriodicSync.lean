import Efio.Proofs.Evio.CloseReturn
import Efio.Proofs.Evio.SyncLocks

/-!
# `Efio.Proofs.Evio.PeriodicSync`: what one pass of `slow_sync` achieves

`slowSync_onDisk`: the foreground thread has made its calls of `ef_write`
and `ef_sync` and leaves the file alone, and `slow_sync` begins its pass
over the file. Then it needs no luck with the locks, the background comes
to rest after a bounded number of steps in any order, no step fails, and
every byte that `ef_write` has accepted is on disk.

`syncStep_progress` is the step lemma: `sync_file_writes` always goes on
(`Unlocked`), and what it pushes is paid for by the places it leaves
behind (`syncWork`). That the last item is an `fsync` is `syncStep_flushed`.
-/

set_option autoImplicit false

namespace Efio.Proofs.Evio

open Efio.Lib
open Efio.Evio
open Efio.Evio.PipelineState
open Efio.Spec
open Efio.Spec.Backlog
open Efio.Proofs.Spec

variable {E : Env} {s s' : PipelineState} {f : EfFile} {oflag : OFlag} {init : List UInt8}

/-! ### The tasks do not fail -/

/-- With system calls that succeed, no sequence of tasks fails on a file
that is open for writing. -/
theorem execTasks_total (hE : E.Reliable) (hwritable : oflag.has (O_RDWR ||| O_WRONLY))
    (init : List UInt8) (ws : List WriteTask) :
    ∃ f, execTasks E (efFileOpen E oflag init) ws = .ok f := by
  by_cases happend : oflag.has O_APPEND
  · have hwrite : oflag.has (O_WRONLY ||| O_RDWR) :=
      OFlag.has_or.mpr (OFlag.has_or.mp hwritable).symm
    obtain ⟨f, hrun, -⟩ := execTasks_rule (E := E) (I := fun _ f => ∃ content, AppendFile E f content)
      (fun w rest f ⟨content, hfile⟩ => by
        obtain ⟨f', n, hexec, hfile', -⟩ := execTask_append hE hfile w
        exact ⟨f', n, hexec, _, hfile'⟩)
      ws _ ⟨_, efFileOpen_append happend hwrite init⟩
    exact ⟨f, hrun⟩
  · by_cases hread : oflag.has O_RDWR
    · obtain ⟨f, hrun, -⟩ := execTasks_rule (E := E)
        (I := fun _ f => ∃ content, OverwriteFile E f content)
        (fun w rest f ⟨content, hfile⟩ => by
          obtain ⟨f', n, hexec, hfile', -⟩ := execTask_overwrite hE hfile w
          exact ⟨f', n, hexec, _, hfile'⟩)
        ws _ ⟨_, (efFileOpen_overwrite hread happend init).1⟩
      exact ⟨f, hrun⟩
    · have hwrite := (OFlag.has_or.mp hwritable).resolve_left hread
      obtain ⟨hopen, hoff⟩ := efFileOpen_writeOnly (E := E) hwrite hread happend init (payload ws)
      obtain ⟨f, hrun, -⟩ := execTasks_rule (E := E)
        (I := fun rest f => WriteOnlyFile E (openedData oflag init) (payload ws) f ∧
          (payload ws).drop f.fileOffset = payload rest)
        (fun w rest f ⟨hfile, hstream⟩ => by
          obtain ⟨f', n, hexec, hfile', hstream', -⟩ := execTask_writeOnly hE hfile hstream
          exact ⟨f', n, hexec, hfile', hstream'⟩)
        ws _ ⟨hopen, by rw [hoff]; rfl⟩
      exact ⟨f, hrun⟩

/-- The next item is executed. -/
theorem execTask_of_replays (hE : E.Reliable) (hwritable : oflag.has (O_RDWR ||| O_WRONLY))
    (h : Replays E (efFileOpen E oflag init) s) (w : WriteTask) :
    ∃ r, execTask E s.file w = .ok r := by
  obtain ⟨f, hrun⟩ := execTasks_total hE hwritable init (s.executed ++ [w])
  unfold Replays at h
  rw [execTasks] at h hrun
  rw [List.foldlM_append, h] at hrun
  rw [ok_bind, List.foldlM_cons] at hrun
  obtain ⟨f', hone, -⟩ := bind_eq_ok.mp hrun
  obtain ⟨r, hexec, -⟩ := bind_eq_ok.mp hone
  exact ⟨r, hexec⟩

/-- No item fails. -/
theorem not_itemFails (hE : E.Reliable) (hwritable : oflag.has (O_RDWR ||| O_WRONLY))
    (h : Replays E (efFileOpen E oflag init) s) (e : Fault) : ¬ ItemFails E s e := by
  rintro ⟨i, id, w, rest, bytes, -, hfails⟩
  obtain ⟨r, hexec⟩ := execTask_of_replays hE hwritable h w
  cases hfails.symm.trans hexec

/-! ### The pass -/

/-- The steps of the pass that are left, with those of `file_writer` and of
`ef_file_write` for what it is going to push. -/
def pushWork : PushPc → Nat
  | .post _ => 5
  | .init _ => 6
  | .enqueue _ => 18
  | .count _ => 19

def syncWork : Option SyncPc → Nat
  | none => 0
  | some .unlockHandle => 1
  | some .unlockAction => 2
  | some .resumeWrites => 3
  | some (.fsyncPush p) => 3 + pushWork p
  | some .fsync => 23
  | some (.lowSyncPush p) => 23 + pushWork p
  | some .lowSync => 43
  | some .awaitComplete => 44
  | some .testAction => 45
  | some .suspendWrites => 46
  | some .lockAction => 47
  | some .checkFile => 48
  | some .lockHandle => 49

/-- What the pass has achieved so far. -/
def PassPlace (b : Backlog) (p : ActionPtr) : Option SyncPc → Prop
  | none => IsWrite p → EndsClean b
  | some .awaitComplete => ¬ IsWrite p ∧ ∃ id a, p = .live id a
  | some q => IsWrite p → Flushed b q

/-- A push goes on, and lowers the work. -/
theorem pushStep_progress {p : PushPc} (h : FlowInv (flowWith s (some p))) :
    ∃ s₁ next, s.pushStep p = .ok (s₁, next) ∧
      (flowWith s₁ none).work + (next.elim 0 pushWork) < (flowWith s none).work + pushWork p := by
  obtain ⟨id, inp, hsome⟩ := h.exists_inp fun hq => by cases hq.2.2.2
  change liveWrite s = some (id, inp) at hsome
  obtain ⟨hlive, a, hact, hcmd, hinp⟩ := liveWrite_eq_some.mp hsome
  have hd : s.derefWriteInp = .ok (id, a, inp) := derefWriteInp_eq_ok.mpr ⟨hlive, hact, hinp⟩
  rw [work_flowWith hsome]
  cases p with
  | count w =>
    refine ⟨s.setWriteInp id a { inp with writeTotreqCount := inp.writeTotreqCount + 1 },
      some (.enqueue w), by simp only [pushStep, hd, ok_bind]; rfl, ?_⟩
    rw [work_flowWith (liveWrite_setWriteInp s id hlive hcmd _)]
    simp only [setWriteInp, setAction, Option.elim_some, pushWork]
    omega
  | enqueue w =>
    obtain ⟨s₁, hs₁⟩ : ∃ s₁ : PipelineState, s₁ = { s.setWriteInp id a { inp with wQueue := inp.wQueue ++ [w] } with
      pushed := s.pushed ++ [w] } := ⟨_, rfl⟩
    refine ⟨s₁, some (.init id), by simp only [pushStep, hd, ok_bind, hs₁]; rfl, ?_⟩
    have hsome₁ : liveWrite s₁ = some (id, { inp with wQueue := inp.wQueue ++ [w] }) :=
      hs₁ ▸ liveWrite_setWriteInp s id hlive hcmd _
    rw [work_flowWith hsome₁, hs₁]
    simp only [setWriteInp, setAction, Option.elim_some, pushWork, List.length_append,
      List.length_singleton]
    omega
  | init i =>
    refine ⟨s.setAction id (lowEioCmdInit a), some (.post i),
      by simp only [pushStep, derefAction_of_live hlive hact, ok_bind]; rfl, ?_⟩
    have hsome₁ : liveWrite (s.setAction id (lowEioCmdInit a)) = some (id, inp) :=
      liveWrite_eq_some.mpr ⟨hlive, _, rfl, rfl, hinp⟩
    rw [work_flowWith hsome₁]
    simp only [setAction, Option.elim_some, pushWork]
    omega
  | post i =>
    obtain ⟨s₁, hs₁⟩ : ∃ s₁ : PipelineState, s₁ = { s with
      fileWriterQueue := s.fileWriterQueue ++ [.fwWriteReqEvt i] } := ⟨_, rfl⟩
    refine ⟨s₁, none, by rw [hs₁]; rfl, ?_⟩
    have hsome₁ : liveWrite s₁ = some (id, inp) := hs₁ ▸ hsome
    rw [work_flowWith hsome₁, hs₁]
    simp only [Option.elim_none, pushWork, List.length_append, List.length_singleton]
    omega

/-- Between two calls of the foreground thread no action has been freed
and not yet cleared. -/
theorem not_freed_of_idle (h : WriteRun E f s) (hidle : s.foreground = .idle) : s.action ≠ .freed := by
  intro hfreed
  have hcount := h.draining.inv.own.setNull
  rw [if_pos hfreed, setNulls, h.writing.closes, hidle] at hcount
  cases hcount

/-- A pass of `slow_sync` goes on, and lowers the work. -/
theorem syncStep_progress (h : WriteRun E f s) (hunlocked : Unlocked s) (hidle : s.foreground = .idle)
    {p : SyncPc} (hslow : s.slowSync = some p)
    (hplace : PassPlace (backlog s) s.action (some p)) :
    ∃ s₁ next, s.syncStep p = .ok (s₁, next) ∧
      (flowWith s₁ none).work + syncWork next < (flowWith s none).work + syncWork (some p) ∧
      (next = some .awaitComplete → ¬ IsWrite s₁.action ∧ ∃ id a, s₁.action = .live id a) := by
  have hlive := h.draining.live
  have hflow : FlowInv (flowWith s (syncPush p)) := by
    have hpush : pushOf s = syncPush p := by
      rw [pushOf, hidle, hslow]
      rfl
    exact hpush ▸ h.draining.inv.flow
  have htest : s.testAction = .ok none ∧ s.action = .null ∨
      ∃ id a, s.testAction = .ok (some (id, a)) ∧ s.action = .live id a := by
    cases hact : s.action with
    | null => exact Or.inl ⟨testAction_of_null hlive hact, rfl⟩
    | live id a => exact Or.inr ⟨id, a, testAction_of_live hlive hact, rfl⟩
    | freed => exact absurd hact (not_freed_of_idle h hidle)
  cases p with
  | lockHandle =>
    have hzero : s.handleToFileAction = 0 := by
      have hhandle := hunlocked.handle
      rwa [hslow] at hhandle
    refine ⟨_, _, rfl, ?_, ?_⟩
    · rw [cas_of_eq hzero]
      exact Nat.lt_succ_self _
    · rw [cas_of_eq hzero]
      simp
  | checkFile =>
    refine ⟨s, some .lockAction, ?_, Nat.lt_succ_self _, by simp⟩
    simp only [syncStep, h.draining.slot, derefRecord_of_live hlive, ok_bind, h.draining.status,
      h.draining.writable, ne_eq, not_true_eq_false, if_false]
    rfl
  | lockAction =>
    have hzero : s.preventActionMutation = 0 := hunlocked.guard_free hidle (by rw [hslow]; rfl)
    simp only [syncStep, derefRecord_of_live hlive, ok_bind, cas_of_eq hzero]
    exact ⟨_, _, rfl, Nat.lt_succ_self _, by simp⟩
  | suspendWrites =>
    have hzero : s.writeSuspended = 0 := by
      have hword := h.draining.inv.locks.word
      rwa [hidle, hslow] at hword
    simp only [syncStep, derefRecord_of_live hlive, ok_bind, cas_of_eq hzero]
    exact ⟨_, _, rfl, Nat.lt_succ_self _, by simp⟩
  | testAction =>
    obtain ⟨htest, -⟩ | ⟨id, a, htest, hact⟩ := htest
    · simp only [syncStep, htest, ok_bind]
      exact ⟨_, _, rfl, Nat.add_lt_add_left (by decide) _, by simp⟩
    · simp only [syncStep, htest, ok_bind]
      by_cases hcmd : a.cmd = .operWrite
      · simp only [hcmd, ne_eq, not_true_eq_false, if_false]
        exact ⟨_, _, rfl, Nat.add_lt_add_left (by decide) _, by simp⟩
      · simp only [hcmd, ne_eq, not_false_eq_true, if_true]
        refine ⟨_, _, rfl, Nat.lt_succ_self _, fun _ => ⟨?_, id, a, hact⟩⟩
        rintro ⟨i, b, heq, hop⟩
        obtain ⟨-, rfl⟩ := ActionPtr.live.inj (hact.symm.trans heq)
        exact hcmd hop
  | awaitComplete =>
    obtain ⟨hno, id, a, hact⟩ := hplace
    have hcomplete := hunlocked.ready.complete hno id a hact
    simp only [syncStep, derefAction_of_live hlive hact, ok_bind, hcomplete, ne_eq, not_true_eq_false,
      if_false]
    exact ⟨_, _, rfl, Nat.lt_succ_self _, by simp⟩
  | lowSync =>
    obtain ⟨htest, -⟩ | ⟨id, a, htest, hact⟩ := htest
    · refine ⟨s, some .fsync, ?_, Nat.add_lt_add_left (by decide) _, by simp⟩
      simp only [syncStep, lowEfSync, htest, ok_bind]
      rfl
    · by_cases hcmd : a.cmd = .operWrite
      · obtain ⟨i, b, heq, -, hinput⟩ := hunlocked.ready.input ⟨id, a, hact, hcmd⟩
        obtain ⟨-, rfl⟩ := ActionPtr.live.inj (hact.symm.trans heq)
        obtain ⟨inp, hinp⟩ := Option.isSome_iff_exists.mp hinput
        have hsome : liveWrite s = some (id, inp) := liveWrite_eq_some.mpr ⟨hlive, a, hact, hcmd, hinp⟩
        by_cases hempty : inp.wAccum = []
        · refine ⟨s, some .fsync, ?_, Nat.add_lt_add_left (by decide) _, by simp⟩
          simp only [syncStep, lowEfSync, htest, ok_bind, hcmd, ne_eq, not_true_eq_false, if_false, hinp,
            hempty, if_true]
          rfl
        · refine ⟨s.setWriteInp id a { inp with wAccum := [] },
            some (.lowSyncPush (.count ⟨.fileWriteEvt, inp.wAccum⟩)), ?_, ?_, by simp⟩
          · simp only [syncStep, lowEfSync, htest, ok_bind, hcmd, ne_eq, not_true_eq_false, if_false, hinp,
              hempty]
            rfl
          · rw [work_flowWith hsome, work_flowWith (liveWrite_setWriteInp s id hlive hcmd _)]
            simp only [setWriteInp, setAction, syncWork, pushWork]
            omega
      · refine ⟨s, some .fsync, ?_, Nat.add_lt_add_left (by decide) _, by simp⟩
        simp only [syncStep, lowEfSync, htest, ok_bind, hcmd, ne_eq, not_false_eq_true, if_true]
        rfl
  | lowSyncPush q =>
    obtain ⟨s₁, next, hstep, hlt⟩ := pushStep_progress (p := q) hflow
    refine ⟨s₁, some (next.elim .fsync .lowSyncPush), ?_, ?_, ?_⟩
    · simp only [syncStep, hstep, ok_bind]
      rfl
    · cases next <;> simp only [Option.elim_none, Option.elim_some, syncWork] at hlt ⊢ <;> omega
    · cases next <;> simp
  | fsync =>
    obtain ⟨htest, -⟩ | ⟨id, a, htest, hact⟩ := htest
    · simp only [syncStep, htest, ok_bind]
      exact ⟨_, _, rfl, Nat.add_lt_add_left (by decide) _, by simp⟩
    · by_cases hskip : a.cmd ≠ .operWrite ∨ a.actionStatus = .actionComplete
      · refine ⟨s, some .resumeWrites, ?_, Nat.add_lt_add_left (by decide) _, by simp⟩
        simp only [syncStep, htest, ok_bind, hskip, if_true]
        rfl
      · have hcmd : a.cmd = .operWrite := not_not.mp fun hne => hskip (Or.inl hne)
        obtain ⟨i, b, heq, -, hinput⟩ := hunlocked.ready.input ⟨id, a, hact, hcmd⟩
        obtain ⟨-, rfl⟩ := ActionPtr.live.inj (hact.symm.trans heq)
        obtain ⟨inp, hinp⟩ := Option.isSome_iff_exists.mp hinput
        refine ⟨s, some (.fsyncPush (.count ⟨.fileFsyncEvt, inp.wAccum⟩)), ?_,
          Nat.add_lt_add_left (show 3 + 19 < 23 by decide) _, by simp⟩
        simp only [syncStep, htest, ok_bind, hskip, if_false, hinp]
        rfl
  | fsyncPush q =>
    obtain ⟨s₁, next, hstep, hlt⟩ := pushStep_progress (p := q) hflow
    refine ⟨s₁, some (next.elim .resumeWrites .fsyncPush), ?_, ?_, ?_⟩
    · simp only [syncStep, hstep, ok_bind]
      rfl
    · cases next <;> simp only [Option.elim_none, Option.elim_some, syncWork] at hlt ⊢ <;> omega
    · cases next <;> simp
  | resumeWrites =>
    simp only [syncStep, derefRecord_of_live hlive, ok_bind]
    exact ⟨_, _, rfl, Nat.lt_succ_self _, by simp⟩
  | unlockAction =>
    simp only [syncStep, derefRecord_of_live hlive, ok_bind]
    exact ⟨_, _, rfl, Nat.lt_succ_self _, by simp⟩
  | unlockHandle => exact ⟨_, _, rfl, Nat.lt_succ_self _, by simp⟩

/-- A step of the pass and what it has achieved then. -/
theorem passPlace_step (h : WriteRun E f s) (hidle : s.foreground = .idle) {p : SyncPc}
    (hslow : s.slowSync = some p) (hplace : PassPlace (backlog s) s.action (some p))
    {next : Option SyncPc} (hstep : s.syncStep p = .ok (s', next))
    (hawait : next = some .awaitComplete → ¬ IsWrite s'.action ∧ ∃ id a, s'.action = .live id a) :
    PassPlace (backlog { s' with slowSync := next }) s'.action next := by
  have hpush : pushOf s = syncPush p := by
    rw [pushOf, hidle, hslow]
    rfl
  have hflow : FlowInv (flowWith s ((syncPush p).or none)) := by
    rw [Option.or_none]
    exact hpush ▸ h.draining.inv.flow
  have hframe := (syncStep_frame (isWrite_of_syncPush hflow) hstep).1
  have hpush' : pushOf { s' with slowSync := next } = (next.bind syncPush).or none := by
    show Option.or (foregroundPush s'.foreground) (next.bind syncPush) = _
    rw [hframe.foreground, hidle, Option.or_none]
    rfl
  have hback : backlog { s' with slowSync := next } = backlogWith s' ((next.bind syncPush).or none) := by
    rw [backlog, hpush']
    rfl
  have hbefore (hwrite : IsWrite s'.action) : Working .operWrite s.action ∧
      Flushed (backlogWith s ((syncPush p).or none)) p := by
    obtain ⟨id, a, hact, hcmd⟩ := hframe.action.isWrite hwrite
    refine ⟨.of_incomplete h.writing.incomplete hact hcmd, ?_⟩
    rw [Option.or_none, ← hpush]
    cases p with
    | awaitComplete => exact absurd ⟨id, a, hact, hcmd⟩ hplace.1
    | _ => exact hplace ⟨id, a, hact, hcmd⟩
  have hafter (hwrite : IsWrite s'.action) := syncStep_flushed E h.draining.live h.draining.slot
    h.draining.status h.draining.writable (hbefore hwrite).1 (fun _ => rfl) hflow (hbefore hwrite).2 hstep
  rw [hback]
  cases next with
  | none => exact hafter
  | some q =>
    cases q with
    | awaitComplete => exact hawait rfl
    | _ => exact hafter

/-- The steps of the background, and those of `slow_sync` that belong to
the pass. -/
def PassSteps (s : PipelineState) : PipelineLabel → Prop
  | .fileWriter | .writeJob _ => True
  | .slowSync => s.slowSync ≠ none
  | _ => False

/-- What holds during the pass. -/
structure Passing (E : Env) (oflag : OFlag) (init : List UInt8) (history : List Observed)
    (s : PipelineState) : Prop where
  run : WriteRun E (efFileOpen E oflag init) s
  unlocked : Unlocked s
  idle : s.foreground = .idle
  fault : s.fault = none
  history : s.history = history
  place : PassPlace (backlog s) s.action s.slowSync

/-- The work of the pass and of the background behind it. -/
def passWork (s : PipelineState) : Nat := (flowWith s none).work + syncWork s.slowSync

theorem PassPlace.background {b b' : Backlog} {p p' : ActionPtr} {q : Option SyncPc}
    (h : PassPlace b p q) (hstores : Stores false p p') (hstep : BacklogStep E b b') :
    PassPlace b' p' q := by
  cases q with
  | none => exact fun hwrite => endsClean_step (h (hstores.isWrite hwrite)) hstep
  | some q =>
    cases q with
    | awaitComplete =>
      obtain ⟨hno, id, a, hact⟩ := h
      refine ⟨fun hwrite => hno (hstores.isWrite hwrite), ?_⟩
      cases hstores with
      | same => exact ⟨id, a, hact⟩
      | store a' hact' hcmd hinp hstatus => exact ⟨_, _, rfl⟩
    | _ => exact fun hwrite => (h (hstores.isWrite hwrite)).step hstep

theorem Passing.step (hE : E.Reliable) (hwritable : oflag.has (O_RDWR ||| O_WRONLY))
    {history : List Observed} (h : Passing E oflag init history s) {l : PipelineLabel}
    (hok : PassSteps s l) (hstep : PipelineState.step E l s = some s') :
    Passing E oflag init history s' ∧ passWork s' < passWork s := by
  have hinv := h.run.draining.inv
  have hwrites : WritesAndSyncs s l := by cases l <;> trivial
  have hrun' : WriteRun E (efFileOpen E oflag init) s' := h.run.step hwrites hstep
  have hunlocked' : Unlocked s' := h.unlocked.step h.run.writing hinv hwrites hstep
  obtain ⟨-, hrun | ⟨e, hrun, rfl⟩⟩ := step_eq_some hstep
  · cases l with
    | fileWriter =>
      have hframe := (fileWriterStep_frame hrun).1
      have hpush : pushOf s' = pushOf s := by rw [pushOf, pushOf, hframe.foreground, hframe.slowSync]
      have hback : backlog s' = backlog s := by
        rw [backlog, backlog, hpush]
        exact fileWriterStep_backlog hinv.flow hrun
      refine ⟨⟨hrun', hunlocked', hframe.foreground.trans h.idle, ?_, ?_, ?_⟩, ?_⟩
      · rw [hframe.rest]
        exact h.fault
      · rw [hframe.rest]
        exact h.history
      · rw [hframe.slowSync, hback]
        exact h.place.background hframe.action (.same (E := E))
      · rw [passWork, passWork, hframe.slowSync]
        exact Nat.add_lt_add_right (fileWriterStep_work hinv.flow hrun) _
    | writeJob i =>
      simp only [threadStep] at hrun
      obtain ⟨j, s₁, next, hjob, hj, rfl⟩ := jobStep_eq_some hrun
      have hframe := (writeJobStep_frame hj).1
      have hslow : s₁.slowSync = s.slowSync := hframe.slowSync
      have hpush : pushOf s₁ = pushOf s := by rw [pushOf, pushOf, hframe.foreground, hslow]
      have hback : BacklogStep E (backlog s) (backlog s₁) := by
        rw [backlog, backlog, hpush]
        exact writeJobStep_backlog hinv.flow hjob hj
      refine ⟨⟨hrun', hunlocked', hframe.foreground.trans h.idle, ?_, ?_, ?_⟩, ?_⟩
      · show s₁.fault = none
        rw [hframe.rest]
        exact h.fault
      · show s₁.history = history
        rw [hframe.rest]
        exact h.history
      · show PassPlace (backlog s₁) s₁.action s₁.slowSync
        rw [hslow]
        exact h.place.background hframe.action hback
      · show _ + syncWork s₁.slowSync < _
        rw [passWork, hslow]
        exact Nat.add_lt_add_right (writeJobStep_work hinv.flow hjob hj) _
    | slowSync =>
      obtain ⟨hslow, -⟩ | ⟨p, s₁, next, hslow, hsync, rfl⟩ := slowSyncStep_cases hrun
      · exact absurd hslow hok
      have hplace := h.place
      rw [hslow] at hplace
      obtain ⟨s₂, next', hsync', hlt, hawait⟩ :=
        syncStep_progress h.run h.unlocked h.idle hslow hplace
      cases hsync.symm.trans hsync'
      have hframe := (syncStep_frame (fun hne => (withInput_of_push hinv hslow hne).isWrite) hsync).1
      refine ⟨⟨hrun', hunlocked', hframe.foreground.trans h.idle, ?_, ?_, ?_⟩, ?_⟩
      · show s₁.fault = none
        rw [hframe.rest]
        exact h.fault
      · show s₁.history = history
        rw [hframe.rest]
        exact h.history
      · exact passPlace_step h.run h.idle hslow hplace hsync hawait
      · rw [passWork, passWork, hslow]
        exact hlt
    | _ => exact hok.elim
  · -- No step fails.
    exfalso
    cases l with
    | fileWriter => exact fileWriterStep_ne_error hinv.flow e hrun
    | writeJob i =>
      simp only [threadStep] at hrun
      obtain ⟨j, hjob, hj⟩ := jobStep_eq_error hrun
      exact not_itemFails hE hwritable h.run.replays e (itemFails_of_error hinv.flow hjob hj)
    | slowSync =>
      cases hslow : s.slowSync with
      | none => exact absurd hslow hok
      | some p =>
        have hplace := h.place
        rw [hslow] at hplace
        obtain ⟨s₂, next', hsync, -, -⟩ := syncStep_progress h.run h.unlocked h.idle hslow hplace
        simp only [threadStep, slowSyncStep, hslow, hsync, ok_bind] at hrun
        cases hrun
    | _ => exact hok.elim

/-- At the end of the pass with the background at rest, everything is in
the file. -/
theorem Passing.settled {history : List Observed} (h : Passing E oflag init history s)
    (hslow : s.slowSync = none) (hdone : BackgroundDone s) :
    s.executed = s.pushed ∧ Settled (backlog s) := by
  have hpush : pushOf s = none := by
    rw [pushOf, h.idle, hslow]
    rfl
  have hexecuted : s.executed = s.pushed := hdone.executed (by rw [hpush]; rfl)
  refine ⟨hexecuted, h.run.draining.settled_of fun hwrite => ?_⟩
  have hplace := h.place
  rw [hslow] at hplace
  have hclean : EndsClean (backlog s) := hplace hwrite
  have hqueue : (backlog s).queue = [] := by
    show s.pushed.drop s.executed.length ++ countedTask (pushOf s) = []
    rw [hexecuted, hpush, List.drop_length]
    rfl
  have hafter := hclean.queue
  rw [hqueue] at hafter
  exact ⟨hclean.accum, hclean.waiting, by simp [hqueue, OnlySyncs], hafter⟩

theorem passing_of_reach (hwritable : oflag.has (O_RDWR ||| O_WRONLY)) {collected : Bool}
    (h : Reach (PipelineState.step E) WritesAndSyncs (opened (efFileOpen E oflag init) collected) s) :
    WriteRun E (efFileOpen E oflag init) s ∧ Unlocked s :=
  h.invariant (I := fun s => WriteRun E (efFileOpen E oflag init) s ∧ Unlocked s)
    ⟨writeRun_opened hwritable init collected, unlocked_opened _ collected⟩
    fun _ _ _ hs hok hstep => ⟨hs.1.step hok hstep, hs.2.step hs.1.writing hs.1.draining.inv hok hstep⟩

/-- In any order of the steps: a pass of `slow_sync` over a file that the
foreground thread leaves alone comes to an end, with the background, after
a bounded number of steps. No step fails. All items have been executed, and
what `ef_write` has accepted is on disk. -/
theorem slowSync_onDisk (hE : E.Reliable) (hwritable : oflag.has (O_RDWR ||| O_WRONLY))
    {collected : Bool}
    (h : Reach (PipelineState.step E) WritesAndSyncs (opened (efFileOpen E oflag init) collected) s)
    (hidle : s.foreground = .idle) (hslow : s.slowSync = some .lockHandle) (hfault : s.fault = none) :
    Settles (PipelineState.step E) PassSteps (passWork s)
      (fun s' => s'.fault = none ∧ s'.slowSync = none ∧ s'.history = s.history ∧
        s'.executed = s'.pushed ∧ OnDisk oflag init (acceptedBytes s.history) s'.file.fd.data) s := by
  obtain ⟨hrun, hunlocked⟩ := passing_of_reach hwritable h
  have hpassing : Passing E oflag init s.history s := by
    refine ⟨hrun, hunlocked, hidle, hfault, rfl, ?_⟩
    rw [hslow]
    exact fun _ => trivial
  refine .of_measure (I := Passing E oflag init s.history) hpassing
    (fun _ _ _ hs hok hstep => hs.step hE hwritable hok hstep) fun s' hs hrest => ?_
  have hnone : s'.slowSync = none := by
    by_contra hsome
    obtain ⟨p, hp⟩ := Option.ne_none_iff_exists'.mp hsome
    have hstuck := hrest .slowSync hsome
    unfold PipelineState.step at hstuck
    rw [hs.fault] at hstuck
    have hnostep := Option.map_eq_none_iff.mp hstuck
    simp only [threadStep, slowSyncStep, hp] at hnostep
    cases hnostep
  have hdone : BackgroundDone s' := by
    refine backgroundDone_of_rest hs.run.draining.inv hs.fault fun l hback => hrest l ?_
    cases l <;> trivial
  obtain ⟨hexecuted, hsettled⟩ := hs.settled hnone hdone
  have hpayload := hs.run.draining.payload_executed (by rw [hs.idle]; rfl) hsettled
  rw [hs.history] at hpayload
  refine ⟨hs.fault, hnone, hs.history, hexecuted, ?_⟩
  rw [← hpayload]
  exact onDisk_of_clean hE hwritable init hs.run.replays hsettled.clean

/-- Three bytes, not enough for a page, and the beginning of a pass. -/
theorem slowSync_onDisk_sample :
    ∃ s : PipelineState, s.pushed = [] ∧ acceptedBytes s.history = [1, 2, 3] ∧
      Settles (PipelineState.step sampleEnv) PassSteps (passWork s)
        (fun s' => s'.fault = none ∧ s'.slowSync = none ∧ s'.history = s.history ∧
          s'.executed = s'.pushed ∧
          OnDisk O_RDWR [] (acceptedBytes s.history) s'.file.fd.data) s :=
  ⟨_, rfl, rfl, @slowSync_onDisk sampleEnv _ _ _ (fun _ => rfl) (by decide) true
    (Reach.of_run .init
      ([.call (.efWrite [1, 2, 3]) noView] ++ foregroundSteps 9 ++ [.slowSync]) rfl) rfl rfl rfl⟩

end Efio.Proofs.Evio
