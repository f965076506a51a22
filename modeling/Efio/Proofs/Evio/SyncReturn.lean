import Efio.Proofs.Evio.FlushedPages
import Efio.Proofs.Evio.Replay

/-!
# `Efio.Proofs.Evio.SyncReturn`: what `ef_sync` leaves on disk

`ef_sync` pushes the accumulator page and queues no `fsync`. In runs of
`ef_write` and `ef_sync` without `slow_sync`, every task is a write task
(`OnlyWrites`), and when `ef_sync` returns the tasks are all of the
accepted bytes (`SyncRun.payload_pushed`).

`efSync_onDisk`: once these tasks have been executed the accepted bytes are
on disk if the bytes that are left in the page buffer agree with the old
file; when nothing else has been executed, only if.
-/

set_option autoImplicit false

namespace Efio.Proofs.Evio

open Efio.Lib
open Efio.Evio
open Efio.Evio.PipelineState
open Efio.Spec
open Efio.Proofs.Spec

variable {E : Env} {s s' : PipelineState}

/-! ### Definitions -/

/-- Nothing but `ef_write` and `ef_sync` is called, and `slow_sync` does
nothing. -/
def Unhelped (s : PipelineState) (l : PipelineLabel) : Prop := WritesAndSyncs s l ∧ l ≠ .slowSync

instance : DecidableRel Unhelped := fun _ _ => inferInstanceAs (Decidable (_ ∧ _))

/-- The step from `s` to `s'` is the return of an `ef_sync` that gives 0. -/
def SyncReturns (E : Env) (s s' : PipelineState) : Prop :=
  (∃ v closeFails, PipelineState.step E (.foreground v closeFails) s = some s') ∧
    s.foreground = .syncResume ∧ s'.foreground = .idle

/-- The tasks that were pushed, and the one that is being pushed. -/
def tasksWith (s : PipelineState) (push : Option PushPc) : List WriteTask :=
  s.pushed ++ countedTask push ++ (waitingTask push).toList

/-- `slow_sync` does nothing, and all tasks are write tasks. -/
structure OnlyWrites (s : PipelineState) : Prop where
  slow : s.slowSync = none
  writes : ∀ w ∈ tasksWith s (foregroundPush s.foreground), w.cmd = .fileWriteEvt

/-- `low_ef_sync` of `ef_sync` has taken the accumulator. -/
def pastFlush : ForegroundPc → Bool
  | .pushing _ .sync | .syncResume => true
  | _ => false

/-- What the runs with `ef_write` and `ef_sync` keep without `slow_sync`. -/
structure SyncRun (E : Env) (f : EfFile) (s : PipelineState) : Prop
    extends WriteRun E f s where
  only : OnlyWrites s
  flushed : pastFlush s.foreground = true → (backlog s).accum = []

/-! ### The tasks -/

/-- At most one write task is added to the tasks. -/
def AddsWrite (ws ws' : List WriteTask) : Prop :=
  ws' = ws ∨ ∃ w, w.cmd = .fileWriteEvt ∧ ws' = ws ++ [w]

/-- What a step of the foreground thread does to the tasks. -/
structure Adds (s s' : PipelineState) : Prop where
  slow : s'.slowSync = s.slowSync
  tasks : AddsWrite (tasksWith s (foregroundPush s.foreground))
    (tasksWith s' (foregroundPush s'.foreground))

theorem OnlyWrites.of_adds (h : OnlyWrites s) (ha : Adds s s') : OnlyWrites s' := by
  refine ⟨ha.slow.trans h.slow, ?_⟩
  intro w hw
  obtain heq | ⟨v, hv, heq⟩ := ha.tasks
  · rw [heq] at hw
    exact h.writes w hw
  · rw [heq, List.mem_append, List.mem_singleton] at hw
    obtain hw | rfl := hw
    · exact h.writes w hw
    · exact hv

/-- A step that does not touch the tasks. -/
theorem Adds.goto
    (hrest : s' = { s with
      action := s'.action
      preventActionMutation := s'.preventActionMutation
      writeSuspended := s'.writeSuspended
      nextId := s'.nextId
      foreground := s'.foreground
      history := s'.history })
    (hpush : foregroundPush s'.foreground = foregroundPush s.foreground) : Adds s s' := by
  refine ⟨?_, Or.inl ?_⟩
  · rw [hrest]
  · rw [hpush, hrest]
    rfl

theorem pushStep_tasks {p : PushPc} {next : Option PushPc} (hstep : s.pushStep p = .ok (s', next)) :
    tasksWith s' next = tasksWith s (some p) := by
  cases p with
  | count w =>
    obtain ⟨⟨id, a, inp⟩, -, hok⟩ := bind_eq_ok.mp hstep
    cases hok
    simp only [tasksWith, countedTask, waitingTask, Option.toList_none, Option.toList_some,
      List.append_nil]
    rfl
  | enqueue w =>
    obtain ⟨⟨id, a, inp⟩, -, hok⟩ := bind_eq_ok.mp hstep
    cases hok
    simp only [tasksWith, countedTask, waitingTask, Option.toList_none, List.append_nil]
  | init id =>
    obtain ⟨⟨id', a⟩, -, hok⟩ := bind_eq_ok.mp hstep
    cases hok
    rfl
  | post id =>
    cases hstep
    rfl

/-- A push of a write task starts. -/
theorem addsWrite_start {buf : List UInt8} (hpushed : s'.pushed = s.pushed) :
    AddsWrite (tasksWith s none) (tasksWith s' (some (.count ⟨.fileWriteEvt, buf⟩))) := by
  refine Or.inr ⟨⟨.fileWriteEvt, buf⟩, rfl, ?_⟩
  simp only [tasksWith, hpushed, countedTask, waitingTask, Option.toList_none, Option.toList_some,
    List.append_nil]

/-- `low_ef_sync` leaves an empty accumulator and adds at most a write
task. -/
theorem lowEfSync_tasks {next : Option PushPc} (hstep : s.lowEfSync = .ok (s', next)) :
    AddsWrite (tasksWith s none) (tasksWith s' next) ∧ (backlogWith s' next).accum = [] := by
  obtain ⟨r, htest, hok⟩ := bind_eq_ok.mp hstep
  obtain ⟨hlive, ⟨rfl, hnull⟩ | ⟨id, a, rfl, hact⟩⟩ := testAction_eq_ok htest
  · cases hok
    have hnone : liveWrite s = none := liveWrite_of_not_isWrite (not_isWrite_of_null hnull)
    refine ⟨Or.inl rfl, ?_⟩
    simp only [backlogWith, flowWith, WriteFlow.backlog, hnone, Option.map_none, Option.getD_none]
  · simp only at hok
    split at hok
    · rename_i hcmd
      cases hok
      have hnone : liveWrite s = none := liveWrite_of_not_isWrite (not_isWrite_of_live hact hcmd)
      refine ⟨Or.inl rfl, ?_⟩
      simp only [backlogWith, flowWith, WriteFlow.backlog, hnone, Option.map_none, Option.getD_none]
    · rename_i hcmd
      split at hok
      · cases hok
      · rename_i inp hinp
        have hcmd' := not_not.mp hcmd
        split at hok
        · rename_i hempty
          cases hok
          have hsome := liveWrite_eq_some.mpr ⟨hlive, a, hact, hcmd', hinp⟩
          refine ⟨Or.inl rfl, ?_⟩
          simp only [backlogWith, flowWith, WriteFlow.backlog, hsome, Option.map_some,
            Option.getD_some, hempty]
        · cases hok
          refine ⟨addsWrite_start rfl, ?_⟩
          simp only [backlogWith, flowWith, WriteFlow.backlog, liveWrite_setWriteInp s id hlive hcmd',
            Option.map_some, Option.getD_some]

/-! ### The foreground thread -/

theorem callStep_adds {v : View} {c : Call} (hidle : s.foreground = .idle)
    (hok : WritesAndSyncs s (.call c v)) (hstep : s.callStep E v c = .ok s') :
    Adds s s' ∧ pastFlush s'.foreground = false := by
  have hstay : Adds s s ∧ pastFlush s.foreground = false :=
    ⟨.goto rfl rfl, by rw [hidle]; rfl⟩
  cases c with
  | efWrite buf =>
    obtain rfl | ⟨-, rfl⟩ := callStep_efWrite hstep
    · exact hstay
    · exact ⟨.goto rfl (by rw [hidle]; rfl), rfl⟩
  | efSync =>
    obtain rfl | ⟨-, id, a, -, ⟨-, rfl⟩ | ⟨-, rfl⟩⟩ := callStep_efSync hstep
    · exact hstay
    · exact ⟨.goto rfl (by rw [hidle]; rfl), rfl⟩
    · exact ⟨.goto rfl (by rw [hidle]; rfl), rfl⟩
  | efRead nbyte => exact hok.elim
  | efClose immediate => exact hok.elim

theorem writeStep_adds {pc : ForegroundPc} (hfg : s.foreground = pc) (hpc : pastFlush pc = false)
    (hstep : s.writeStep E pc = .ok s') : Adds s s' ∧ pastFlush s'.foreground = false := by
  unfold writeStep at hstep
  split at hstep
  · obtain ⟨_, -, hok⟩ := bind_eq_ok.mp hstep
    cases hok
    refine ⟨.goto rfl ?_, ?_⟩
    · rw [hfg]
      show foregroundPush (if _ then _ else _) = _
      split <;> rfl
    · show pastFlush (if _ then _ else _) = _
      split <;> rfl
  · obtain ⟨r, -, hok⟩ := bind_eq_ok.mp hstep
    cases r with
    | none =>
      cases hok
      exact ⟨.goto rfl (by rw [hfg]; rfl), rfl⟩
    | some r =>
      simp only at hok
      split at hok
      · cases hok
        exact ⟨.goto rfl (by rw [hfg]; rfl), rfl⟩
      · split at hok <;> cases hok <;> exact ⟨.goto rfl (by rw [hfg]; rfl), rfl⟩
  · obtain ⟨_, -, hok⟩ := bind_eq_ok.mp hstep
    cases hok
    refine ⟨.goto rfl ?_, ?_⟩
    · rw [hfg]
      show foregroundPush (if _ then _ else _) = _
      split <;> rfl
    · show pastFlush (if _ then _ else _) = _
      split <;> rfl
  · split at hstep
    · cases hstep
      exact ⟨.goto rfl (by rw [hfg]; rfl), rfl⟩
    · obtain ⟨⟨id, a, inp⟩, -, hok⟩ := bind_eq_ok.mp hstep
      simp only at hok
      split at hok
      · cases hok
      · split at hok <;> cases hok
        · -- A full page becomes a write task.
          refine ⟨⟨rfl, ?_⟩, rfl⟩
          rw [hfg]
          exact addsWrite_start rfl
        · exact ⟨.goto rfl (by rw [hfg]; rfl), rfl⟩
  · obtain ⟨_, -, hok⟩ := bind_eq_ok.mp hstep
    simp only at hok
    split at hok <;> cases hok
    exact ⟨.goto rfl (by rw [hfg]; rfl), rfl⟩
  · cases hstep
    exact ⟨.goto rfl rfl, hfg ▸ hpc⟩

theorem OnlyWrites.pushOf (h : OnlyWrites s) : pushOf s = foregroundPush s.foreground := by
  rw [Efio.Proofs.Evio.pushOf, h.slow]
  exact Option.or_none

/-- A piece of code that leaves the write flow alone but for the push. -/
theorem Adds.of_frame {s₁ : PipelineState} {pc : ForegroundPc} (hframe : Frame false s s₁)
    (htasks : AddsWrite (tasksWith s (foregroundPush s.foreground)) (tasksWith s₁ (foregroundPush pc))) :
    Adds s { s₁ with foreground := pc } := ⟨hframe.slowSync, htasks⟩

/-- `ef_sync` past its first wait. -/
theorem SyncRun.sync {f : EfFile} (h : SyncRun E f s) {pc : ForegroundPc} (hfg : s.foreground = pc)
    (hstep : s.efSyncStep pc = .ok s') :
    Adds s s' ∧ (pastFlush s'.foreground = true → (backlog s').accum = []) := by
  unfold efSyncStep at hstep
  split at hstep
  · obtain ⟨_, -, hok⟩ := bind_eq_ok.mp hstep
    cases hok
    refine ⟨.goto rfl ?_, fun hpast => absurd hpast (Bool.eq_false_iff.mp ?_)⟩
    · rw [hfg]
      show foregroundPush (if _ then _ else _) = _
      split <;> rfl
    · show pastFlush (if _ then _ else _) = _
      split <;> rfl
  · obtain ⟨⟨s₁, p⟩, hsync, hok⟩ := bind_eq_ok.mp hstep
    cases hok
    obtain ⟨htasks, haccum⟩ := lowEfSync_tasks hsync
    have hframe := (lowEfSync_frame hsync).1
    have hpush : foregroundPush (p.elim .syncResume (.pushing · .sync)) = p := by cases p <;> rfl
    refine ⟨.of_frame hframe ?_, fun _ => ?_⟩
    · rw [hpush, hfg]
      exact htasks
    · have hnext : pushOf { s₁ with foreground := p.elim .syncResume (.pushing · .sync) } = p := by
        rw [pushOf, hpush]
        show p.or (s₁.slowSync.bind syncPush) = p
        rw [hframe.slowSync, h.only.slow]
        exact Option.or_none
      rw [backlog, hnext]
      exact haccum
  · obtain ⟨_, -, hok⟩ := bind_eq_ok.mp hstep
    simp only at hok
    split at hok <;> cases hok
    exact ⟨.goto rfl (by rw [hfg]; rfl), fun hpast => by cases hpast⟩
  · cases hstep
    exact ⟨.goto rfl rfl, h.flushed⟩

theorem SyncRun.push {f : EfFile} (h : SyncRun E f s) {p : PushPc} {k : AfterPush}
    (hfg : s.foreground = .pushing p k) {next : Option PushPc} {s₁ : PipelineState}
    (hstep : s.pushStep p = .ok (s₁, next)) :
    Adds s { s₁ with foreground := next.elim (afterPush k) (.pushing · k) } ∧
      (pastFlush (next.elim (afterPush k) (.pushing · k)) = true →
        (backlog { s₁ with foreground := next.elim (afterPush k) (.pushing · k) }).accum = []) := by
  have hpush : foregroundPush s.foreground = some p := by rw [hfg]; rfl
  have hflow : FlowInv (flowWith s (some p)) := by
    rw [← hpush, ← h.only.pushOf]
    exact h.draining.inv.flow
  have hframe := (pushStep_frame (isWrite_of_push hflow fun h => by cases h) hstep).1
  have hpush' : foregroundPush (next.elim (afterPush k) (.pushing · k)) = next := by
    cases next <;> cases k <;> rfl
  refine ⟨.of_frame hframe (Or.inl ?_), fun hpast => ?_⟩
  · rw [hpush, hpush']
    exact pushStep_tasks hstep
  · have hnext : pushOf { s₁ with foreground := next.elim (afterPush k) (.pushing · k) } = next := by
      rw [pushOf, hpush']
      show next.or (s₁.slowSync.bind syncPush) = next
      rw [hframe.slowSync, h.only.slow]
      exact Option.or_none
    have hbefore : (backlogWith s (some p)).accum = [] := by
      have hflushed := h.flushed (by
        rw [hfg]
        cases next <;> cases k <;> first | rfl | cases hpast)
      rw [backlog, h.only.pushOf, hpush] at hflushed
      exact hflushed
    rw [backlog, hnext]
    show (backlogWith s₁ next).accum = []
    exact accum_step hbefore (pushStep_backlog (E := E) hflow hstep)

theorem SyncRun.foreground {f : EfFile} (h : SyncRun E f s) {v : View} {closeFails : Bool}
    (hstep : s.foregroundStep E closeFails v = .ok s') :
    Adds s s' ∧ (pastFlush s'.foreground = true → (backlog s').accum = []) := by
  have hplace := h.writing.place
  have hno : ∀ {t : PipelineState}, Adds s t ∧ pastFlush t.foreground = false →
      Adds s t ∧ (pastFlush t.foreground = true → (backlog t).accum = []) :=
    fun ht => ⟨ht.1, fun hpast => absurd (ht.2.symm.trans hpast) Bool.false_ne_true⟩
  unfold foregroundStep at hstep
  cases hfg : s.foreground with
  | idle =>
    simp only [hfg] at hstep
    cases hstep
    exact ⟨.goto rfl rfl, h.flushed⟩
  | pushing p k =>
    simp only [hfg] at hstep
    obtain ⟨⟨s₁, next⟩, hp, hok⟩ := bind_eq_ok.mp hstep
    cases hok
    exact h.push hfg hp
  | freeing p k =>
    simp only [hfg] at hstep
    obtain ⟨⟨s₁, next⟩, hp, hok⟩ := bind_eq_ok.mp hstep
    have hrest := freeStep_rest hp
    rw [hrest] at hok
    refine hno ?_
    cases next <;> cases k <;> cases hok <;> exact ⟨.goto rfl (by rw [hfg]; rfl), rfl⟩
  | allocating p oper k =>
    simp only [hfg] at hstep
    obtain ⟨⟨s₁, next⟩, hp, hok⟩ := bind_eq_ok.mp hstep
    have hrest := allocStep_rest hp
    rw [hrest] at hok
    refine hno ?_
    cases next <;> cases k <;> cases hok <;> exact ⟨.goto rfl (by rw [hfg]; rfl), rfl⟩
  | writeSuspend buf =>
    simp only [hfg] at hstep
    exact hno (writeStep_adds hfg rfl hstep)
  | writeTest buf =>
    simp only [hfg] at hstep
    exact hno (writeStep_adds hfg rfl hstep)
  | writeEnsure buf =>
    simp only [hfg] at hstep
    exact hno (writeStep_adds hfg rfl hstep)
  | writeLoop buf done =>
    simp only [hfg] at hstep
    exact hno (writeStep_adds hfg rfl hstep)
  | writeResume =>
    simp only [hfg] at hstep
    exact hno (writeStep_adds hfg rfl hstep)
  | syncSuspend =>
    simp only [hfg] at hstep
    exact h.sync hfg hstep
  | syncFlush =>
    simp only [hfg] at hstep
    exact h.sync hfg hstep
  | syncResume =>
    simp only [hfg] at hstep
    exact h.sync hfg hstep
  | _ =>
    rw [hfg] at hplace
    cases hplace

/-! ### The background -/

theorem writeJobStep_pushed {j : WriteJob} {next : Option WriteJob}
    (hstep : s.writeJobStep E j = .ok (s', next)) : s'.pushed = s.pushed := by
  cases j with
  | items id rest bytes =>
    cases rest with
    | nil =>
      cases hstep
      rfl
    | cons w rest =>
      obtain ⟨_, -, hok⟩ := bind_eq_ok.mp hstep
      obtain ⟨⟨file, n⟩, -, hok⟩ := bind_eq_ok.mp hok
      cases hok
      rfl
  | post id =>
    cases hstep
    rfl
  | _ =>
    obtain ⟨_, -, hok⟩ := bind_eq_ok.mp hstep
    cases hok
    rfl

/-- A step behind the foreground thread. -/
theorem SyncRun.background {f : EfFile} (h : SyncRun E f s) (hnew : WriteRun E f s')
    (hslow : s'.slowSync = s.slowSync) (hfg : s'.foreground = s.foreground)
    (hpushed : s'.pushed = s.pushed) (hstep : BacklogStep E (backlog s) (backlog s')) :
    SyncRun E f s' := by
  refine ⟨hnew, ⟨hslow.trans h.only.slow, ?_⟩, fun hpast => ?_⟩
  · unfold tasksWith
    rw [hfg, hpushed]
    exact h.only.writes
  · rw [hfg] at hpast
    exact accum_step (h.flushed hpast) hstep

theorem SyncRun.step {f : EfFile} (h : SyncRun E f s) {l : PipelineLabel} (hok : Unhelped s l)
    (hstep : PipelineState.step E l s = some s') : SyncRun E f s' := by
  have hnew : WriteRun E f s' := h.toWriteRun.step hok.1 hstep
  obtain ⟨-, hrun | ⟨e, -, rfl⟩⟩ := step_eq_some hstep
  · cases l with
    | call c v =>
      obtain ⟨hidle, hcall⟩ := threadStep_call hrun
      obtain ⟨hadds, hpast⟩ := callStep_adds hidle hok.1 hcall
      exact ⟨hnew, h.only.of_adds hadds, fun h => absurd (hpast.symm.trans h) Bool.false_ne_true⟩
    | foreground v closeFails =>
      obtain ⟨hadds, hflushed⟩ := h.foreground (threadStep_foreground hrun).2
      exact ⟨hnew, h.only.of_adds hadds, hflushed⟩
    | slowSync => exact absurd rfl hok.2
    | fileWriter =>
      have hframe := (fileWriterStep_frame hrun).1
      have hpush : pushOf s' = pushOf s := by rw [pushOf, pushOf, hframe.foreground, hframe.slowSync]
      refine h.background hnew hframe.slowSync hframe.foreground (fileWriterStep_items hrun).1 ?_
      rw [backlog, backlog, hpush, fileWriterStep_backlog h.draining.inv.flow hrun]
      exact .same
    | writeJob i =>
      simp only [threadStep] at hrun
      obtain ⟨j, s₁, next, hjob, hj, rfl⟩ := jobStep_eq_some hrun
      have hframe := (writeJobStep_frame hj).1
      have hslow : s₁.slowSync = s.slowSync := hframe.slowSync
      have hpush : pushOf s₁ = pushOf s := by rw [pushOf, pushOf, hframe.foreground, hslow]
      have hpushed : s₁.pushed = s.pushed := writeJobStep_pushed hj
      refine h.background hnew hslow hframe.foreground hpushed ?_
      show BacklogStep E (backlogWith s (pushOf s)) (backlogWith s₁ (pushOf s₁))
      rw [hpush]
      exact writeJobStep_backlog h.draining.inv.flow hjob hj
    | readJob i => cases (threadStep_readJob_nil h.writing.reads i).symm.trans hrun
    | closeJob i closeFails => cases (threadStep_closeJob_nil h.writing.closes i closeFails).symm.trans hrun
  · exact ⟨hnew, ⟨h.only.slow, h.only.writes⟩, h.flushed⟩

/-! ### The result -/

/-- When `ef_sync` returns, the tasks are all of the accepted bytes. -/
theorem SyncRun.payload_pushed {f : EfFile} (h : SyncRun E f s) (hfg : s.foreground = .syncResume) :
    payload s.pushed = acceptedBytes s.history := by
  have hpush : pushOf s = none := by
    rw [h.only.pushOf, hfg]
    rfl
  have haccum := h.flushed (by rw [hfg]; rfl)
  have haccounted := h.draining.accounted
  rw [hfg] at haccounted
  change (flow s).carried ++ [] = _ at haccounted
  rw [List.append_nil] at haccounted
  rw [← haccounted]
  show _ = payload (s.pushed ++ countedTask (pushOf s) ++ (waitingTask (pushOf s)).toList) ++ (backlog s).accum
  rw [haccum, hpush]
  simp [countedTask, waitingTask]

/-- The disk file is made of the executed write tasks. -/
theorem SyncRun.disk (hE : E.Reliable) {oflag : OFlag}
    (hwritable : oflag.has (O_RDWR ||| O_WRONLY)) {init : List UInt8}
    (h : SyncRun E (efFileOpen E oflag init) s) :
    FlushedPages E oflag init (payload s.executed) s.file.fd.data := by
  have hwrites : ∀ w ∈ s.executed, w.cmd = .fileWriteEvt := by
    intro w hw
    refine h.only.writes w ?_
    have hpushed : s.pushed = s.executed ++ s.pushed.drop s.executed.length :=
      pushed_eq h.draining.inv.flow
    unfold tasksWith
    rw [hpushed]
    simp [hw]
  obtain ⟨f, hf, hdisk⟩ := execTasks_flushedPages hE hwritable init hwrites
  rw [h.replays] at hf
  cases hf
  exact hdisk

theorem syncRun_opened {oflag : OFlag} (hwritable : oflag.has (O_RDWR ||| O_WRONLY))
    (init : List UInt8) (collected : Bool) :
    SyncRun E (efFileOpen E oflag init) (opened (efFileOpen E oflag init) collected) :=
  ⟨writeRun_opened hwritable init collected, ⟨rfl, nofun⟩, nofun⟩

/-- In runs of `ef_write` and `ef_sync` without `slow_sync`, with system
calls that succeed: an `ef_sync` returned in the step to `s₂`, and in `s`
the tasks that were queued then have been executed. If the accepted bytes
agree with the old file where they are left in the page buffer, they are on
disk. If nothing else has been executed, only if. -/
theorem efSync_onDisk (hE : E.Reliable) {oflag : OFlag} (hwritable : oflag.has (O_RDWR ||| O_WRONLY))
    {init : List UInt8} {collected : Bool} {s₁ s₂ : PipelineState}
    (hbefore : Reach (PipelineState.step E) Unhelped (opened (efFileOpen E oflag init) collected) s₁)
    (hreturns : SyncReturns E s₁ s₂) (hafter : Reach (PipelineState.step E) Unhelped s₂ s)
    (hexecuted : s₂.pushed <+: s.executed) :
    (RestAgrees E oflag init (acceptedBytes s₂.history) →
      OnDisk oflag init (acceptedBytes s₂.history) s.file.fd.data) ∧
    (s.executed = s₂.pushed →
      (OnDisk oflag init (acceptedBytes s₂.history) s.file.fd.data ↔
        RestAgrees E oflag init (acceptedBytes s₂.history))) := by
  have hrun₁ : SyncRun E (efFileOpen E oflag init) s₁ :=
    hbefore.invariant (syncRun_opened hwritable init collected) fun _ _ _ h hok hstep => h.step hok hstep
  obtain ⟨⟨v, closeFails, hstep⟩, hfg, -⟩ := hreturns
  have hpayload₁ := hrun₁.payload_pushed hfg
  have hrun₂ : SyncRun E (efFileOpen E oflag init) s₂ :=
    hrun₁.step (l := .foreground v closeFails) ⟨trivial, fun h => by cases h⟩ hstep
  have hrun : SyncRun E (efFileOpen E oflag init) s :=
    hafter.invariant hrun₂ fun _ _ _ h hok hstep => h.step hok hstep
  have hpayload : payload s₂.pushed = acceptedBytes s₂.history := by
    obtain ⟨-, hthread | ⟨e, -, rfl⟩⟩ := step_eq_some hstep
    · simp only [threadStep, hfg, foregroundStep] at hthread
      rw [if_neg (by simp)] at hthread
      obtain ⟨_, -, hok⟩ := bind_eq_ok.mp (Option.some.inj hthread)
      simp only at hok
      split at hok <;> cases hok
      exact hpayload₁
    · exact hpayload₁
  have hdisk := hrun.disk hE hwritable
  obtain ⟨more, hmore⟩ := hexecuted
  refine ⟨fun hrest => ?_, fun hall => ?_⟩
  · rw [← hmore, payload_append, hpayload] at hdisk
    exact onDisk_of_restAgrees hdisk hrest
  · rw [hall, hpayload] at hdisk
    exact onDisk_iff hdisk

/-- `ef_write` of `buf` and `ef_sync` up to its return. -/
def writeThenSync (buf : List UInt8) (writeSteps syncSteps : Nat) : List PipelineLabel :=
  [.call (.efWrite buf) noView] ++ foregroundSteps writeSteps ++ [.call .efSync noView] ++
    foregroundSteps syncSteps

set_option maxRecDepth 4000 in
/-- A page is written and synced, and its task is executed. -/
theorem efSync_onDisk_sample :
    ∃ s₁ s₂ s : PipelineState, SyncReturns sampleEnv s₁ s₂ ∧ s.executed = s₂.pushed ∧
      acceptedBytes s₂.history = [1, 2, 3, 4] ∧
      OnDisk O_RDWR [] (acceptedBytes s₂.history) s.file.fd.data := by
  obtain ⟨s₁, s₂, s, hrun₁, hstep, hrun, hfg, hidle, hexecuted, haccepted⟩ :
      ∃ s₁ s₂ s : PipelineState,
        run (PipelineState.step sampleEnv) Unhelped (writeThenSync [1, 2, 3, 4] 13 2)
          (opened (efFileOpen sampleEnv O_RDWR []) true) = some s₁ ∧
        PipelineState.step sampleEnv (.foreground noView false) s₁ = some s₂ ∧
        run (PipelineState.step sampleEnv) Unhelped (List.replicate 5 .fileWriter ++ writeJobSteps 2) s₂
          = some s ∧
        s₁.foreground = .syncResume ∧ s₂.foreground = .idle ∧ s.executed = s₂.pushed ∧
        acceptedBytes s₂.history = [1, 2, 3, 4] :=
    ⟨_, _, _, rfl, rfl, rfl, rfl, rfl, rfl, rfl⟩
  have hreturns : SyncReturns sampleEnv s₁ s₂ := ⟨⟨_, _, hstep⟩, hfg, hidle⟩
  refine ⟨s₁, s₂, s, hreturns, hexecuted, haccepted,
    (efSync_onDisk (fun _ => rfl) (by decide) (.of_run .init _ hrun₁) hreturns (.of_run .init _ hrun)
      (hexecuted ▸ List.prefix_refl _)).1 ?_⟩
  rw [haccepted]
  unfold RestAgrees
  decide

set_option maxRecDepth 4000 in
/-- One byte is written and synced, and its task is executed. The byte is
still in the page buffer. -/
theorem not_onDisk_of_sync :
    ∃ s₁ s₂ s : PipelineState,
      Reach (PipelineState.step sampleEnv) Unhelped (opened (efFileOpen sampleEnv O_RDWR []) true) s₁ ∧
      SyncReturns sampleEnv s₁ s₂ ∧ Reach (PipelineState.step sampleEnv) Unhelped s₂ s ∧
      s₂.pushed <+: s.executed ∧ acceptedBytes s₂.history = [1] ∧ s.file.fd.data = [] ∧
      ¬ OnDisk O_RDWR [] (acceptedBytes s₂.history) s.file.fd.data := by
  obtain ⟨s₁, s₂, s, hrun₁, hstep, hrun, hfg, hidle, hexecuted, haccepted, hdisk⟩ :
      ∃ s₁ s₂ s : PipelineState,
        run (PipelineState.step sampleEnv) Unhelped (writeThenSync [1] 9 6)
          (opened (efFileOpen sampleEnv O_RDWR []) true) = some s₁ ∧
        PipelineState.step sampleEnv (.foreground noView false) s₁ = some s₂ ∧
        run (PipelineState.step sampleEnv) Unhelped (List.replicate 5 .fileWriter ++ writeJobSteps 2) s₂
          = some s ∧
        s₁.foreground = .syncResume ∧ s₂.foreground = .idle ∧ s.executed = s₂.pushed ∧
        acceptedBytes s₂.history = [1] ∧ s.file.fd.data = [] :=
    ⟨_, _, _, rfl, rfl, rfl, rfl, rfl, rfl, rfl, rfl⟩
  refine ⟨s₁, s₂, s, .of_run .init _ hrun₁, ⟨⟨_, _, hstep⟩, hfg, hidle⟩, .of_run .init _ hrun,
    hexecuted ▸ List.prefix_refl _, haccepted, hdisk, ?_⟩
  rw [haccepted, hdisk]
  unfold OnDisk
  decide

end Efio.Proofs.Evio
