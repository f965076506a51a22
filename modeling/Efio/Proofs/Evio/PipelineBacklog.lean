import Efio.Proofs.Evio.PipelineStep
import Efio.Proofs.Spec.Backlog

/-!
# `Efio.Proofs.Evio.PipelineBacklog`: the threads work on the backlog

`backlog s` is the backlog of a state of the threads, `backlogWith s push`
the same with the push given, as for the write flow. Every step of
`sync_file_writes`, of `file_writer` and of `ef_file_write` is a step of
the backlog.
-/

set_option autoImplicit false

namespace Efio.Proofs.Evio

open Efio.Lib
open Efio.Evio
open Efio.Evio.PipelineState
open Efio.Spec
open Efio.Proofs.Spec

variable {E : Env} {s s' : PipelineState}

/-- The backlog of `s` with the push `push`. -/
def backlogWith (s : PipelineState) (push : Option PushPc) : Backlog :=
  (flowWith s push).backlog s.file

/-- The backlog of the state. -/
def backlog (s : PipelineState) : Backlog := backlogWith s (pushOf s)

/-! ### Reading the backlog -/

theorem backlogWith_congr (hinp : liveWrite s' = liveWrite s) (hpushed : s'.pushed = s.pushed)
    (hexecuted : s'.executed = s.executed) (hfile : s'.file = s.file) (push : Option PushPc) :
    backlogWith s' push = backlogWith s push := by
  simp only [backlogWith, flowWith, WriteFlow.backlog, hinp, hpushed, hexecuted, hfile]

/-- A store to the input that touches neither the accumulator nor the
count. -/
theorem backlogWith_setWriteInp {id : Nat} {a : FileCmd} {inp : WriteOper} (inp' : WriteOper)
    (hlive : s.recordLive = true) (hcmd : a.cmd = .operWrite) (hsome : liveWrite s = some (id, inp))
    (haccum : inp'.wAccum = inp.wAccum) (htotreq : inp'.writeTotreqCount = inp.writeTotreqCount)
    (push : Option PushPc) : backlogWith (s.setWriteInp id a inp') push = backlogWith s push := by
  simp only [backlogWith, flowWith, WriteFlow.backlog, liveWrite_setWriteInp s id hlive hcmd, hsome,
    Option.map_some, Option.getD_some, haccum, htotreq]
  rfl

/-- The executed items are the first pushed ones. -/
theorem pushed_eq {c : WriteFlow} (h : FlowInv c) :
    c.pushed = c.executed ++ c.pushed.drop c.executed.length := by
  cases hinp : c.inp with
  | none =>
    rw [(h.quiet hinp).2, List.drop_length, List.append_nil]
  | some a =>
    have hf : Flowing c a.1 a.2 := h.flowing hinp
    have hord := hf.order
    rw [hord, List.drop_append, List.drop_length, List.nil_append, Nat.sub_self, List.drop_zero]

theorem executed_le {c : WriteFlow} (h : FlowInv c) : c.executed.length ≤ c.pushed.length := by
  rw [pushed_eq h, List.length_append]
  exact Nat.le_add_right _ _

/-! ### The shared pieces of code -/

/-- The task that is counted joins the queue. -/
theorem pushCount_backlog {w : WriteTask} {next : Option PushPc}
    (h : FlowInv (flowWith s (some (.count w)))) (hstep : s.pushStep (.count w) = .ok (s', next)) :
    next = some (.enqueue w) ∧ backlogWith s' next = { backlogWith s (some (.count w)) with
      queue := (backlogWith s (some (.count w))).queue ++ [w]
      waiting := none
      totreq := (backlogWith s (some (.count w))).totreq + 1 } := by
  have hbusy : ¬ (flowWith s (some (.count w))).Quiet := fun hq => by cases hq.2.2.2
  obtain ⟨⟨id, a, inp⟩, hd, hok⟩ := bind_eq_ok.mp hstep
  obtain ⟨hlive, hact, hinp⟩ := derefWriteInp_eq_ok.mp hd
  obtain ⟨hcmd, hsome⟩ := liveWrite_of_busy h hbusy hlive hact hinp
  cases hok
  refine ⟨rfl, ?_⟩
  simp only [backlogWith, flowWith, WriteFlow.backlog, liveWrite_setWriteInp s id hlive hcmd, hsome,
    Option.map_some, Option.getD_some, countedTask, waitingTask, List.append_nil]
  rfl

theorem pushStep_backlog {p : PushPc} {next : Option PushPc} (h : FlowInv (flowWith s (some p)))
    (hstep : s.pushStep p = .ok (s', next)) :
    BacklogStep E (backlogWith s (some p)) (backlogWith s' next) := by
  have hbusy : ¬ (flowWith s (some p)).Quiet := fun hq => by cases hq.2.2.2
  cases p with
  | count w =>
    obtain ⟨rfl, hnew⟩ := pushCount_backlog h hstep
    rw [hnew]
    exact .count rfl
  | enqueue w =>
    obtain ⟨⟨id, a, inp⟩, hd, hok⟩ := bind_eq_ok.mp hstep
    obtain ⟨hlive, hact, hinp⟩ := derefWriteInp_eq_ok.mp hd
    obtain ⟨hcmd, hsome⟩ := liveWrite_of_busy h hbusy hlive hact hinp
    cases hok
    have hle : s.executed.length ≤ s.pushed.length := executed_le h
    have hnew : backlogWith
        { s.setWriteInp id a { inp with wQueue := inp.wQueue ++ [w] } with pushed := s.pushed ++ [w] }
        (some (.init id)) = backlogWith s (some (.enqueue w)) := by
      have hlw : liveWrite { s.setWriteInp id a { inp with wQueue := inp.wQueue ++ [w] } with
          pushed := s.pushed ++ [w] } = some (id, { inp with wQueue := inp.wQueue ++ [w] }) :=
        liveWrite_setWriteInp s id hlive hcmd _
      have hdrop : (s.pushed ++ [w]).drop s.executed.length
          = s.pushed.drop s.executed.length ++ [w] := List.drop_append_of_le_length hle
      simp only [backlogWith, flowWith, WriteFlow.backlog, hlw, hsome, Option.map_some,
        Option.getD_some, countedTask, waitingTask, List.append_nil]
      rw [← hdrop]
      rfl
    rw [hnew]
    exact .same
  | init id =>
    obtain ⟨⟨id', a⟩, hd, hok⟩ := bind_eq_ok.mp hstep
    obtain ⟨hlive, hact⟩ := derefAction_eq_ok.mp hd
    cases hok
    obtain ⟨i, a₀, hact₀, hcmd⟩ := isWrite_of_push h fun h => by cases h
    obtain ⟨-, rfl⟩ := ActionPtr.live.inj (hact₀.symm.trans hact)
    have hnew : backlogWith (s.setAction id' (lowEioCmdInit a₀)) (some (.post id))
        = backlogWith s (some (.post id)) :=
      backlogWith_congr (liveWrite_setAction (lowEioCmdInit a₀) hlive hact hcmd.symm rfl)
        rfl rfl rfl _
    rw [hnew]
    exact .same
  | post id =>
    cases hstep
    exact .same

theorem lowEfSync_backlog {next : Option PushPc} (hstep : s.lowEfSync = .ok (s', next)) :
    BacklogStep E (backlogWith s none) (backlogWith s' next) := by
  obtain ⟨r, htest, hok⟩ := bind_eq_ok.mp hstep
  obtain ⟨hlive, ⟨rfl, -⟩ | ⟨id, a, rfl, hact⟩⟩ := testAction_eq_ok htest
  · cases hok
    exact .same
  · simp only at hok
    split at hok
    · cases hok
      exact .same
    · rename_i hcmd
      split at hok
      · cases hok
      · rename_i inp hinp
        split at hok
        · cases hok
          exact .same
        · rename_i hne
          cases hok
          have hcmd' := not_not.mp hcmd
          have hsome : liveWrite s = some (id, inp) :=
            liveWrite_eq_some.mpr ⟨hlive, a, hact, hcmd', hinp⟩
          have haccum : (backlogWith s none).accum = inp.wAccum := by
            simp only [backlogWith, flowWith, WriteFlow.backlog, hsome, Option.map_some,
              Option.getD_some]
          have hflush := BacklogStep.flush (E := E) (b := backlogWith s none) rfl (by rwa [haccum])
          rw [haccum] at hflush
          have hnew : backlogWith (s.setWriteInp id a { inp with wAccum := [] })
              (some (.count ⟨.fileWriteEvt, inp.wAccum⟩)) = { backlogWith s none with
                waiting := some ⟨.fileWriteEvt, inp.wAccum⟩
                accum := [] } := by
            simp only [backlogWith, flowWith, WriteFlow.backlog,
              liveWrite_setWriteInp s id hlive hcmd', hsome, Option.map_some, Option.getD_some,
              countedTask, waitingTask]
            rfl
          exact hnew ▸ hflush

theorem setStep_backlog {p : SetPc} {next : Option SetPc} (hstep : s.setStep p = .ok (s', next))
    (push : Option PushPc) : backlogWith s' push = backlogWith s push := by
  have hflow := setStep_flow hstep push
  have hfile : s'.file = s.file := by rw [(setStep_frame hstep).1.rest]
  rw [backlogWith, backlogWith, hflow, hfile]

theorem syncStep_backlog {p : SyncPc} {next : Option SyncPc} {other : Option PushPc}
    (hother : syncHolds p = true → other = none) (h : FlowInv (flowWith s ((syncPush p).or other)))
    (hstep : s.syncStep p = .ok (s', next)) :
    BacklogStep E (backlogWith s ((syncPush p).or other))
      (backlogWith s' ((next.bind syncPush).or other)) := by
  apply syncStep_rule
    (R := fun s₁ push => BacklogStep E (backlogWith s ((syncPush p).or other)) (backlogWith s₁ push))
    hother hstep
  · intro hnone _ _ _
    rw [hnone]
    exact .same
  · rintro q s₁ q' hq rfl hpush
    rw [hq] at h ⊢
    exact pushStep_backlog h hpush
  · rintro hnone rfl s₁ q hlow
    rw [hnone]
    exact lowEfSync_backlog hlow
  · rintro hnone rfl id inp -
    rw [hnone]
    exact .fsync (b := backlogWith s none) rfl _ rfl

/-! ### The background -/

theorem fileWriterStep_backlog {push : Option PushPc} (h : FlowInv (flowWith s push))
    (hstep : s.fileWriterStep = some (.ok s')) : backlogWith s' push = backlogWith s push := by
  have hbusy : s.fileWriter ≠ .idle → ¬ (flowWith s push).Quiet := fun hne hq => hne hq.2.1
  unfold fileWriterStep at hstep
  cases hpc : s.fileWriter with
  | idle =>
    simp only [hpc] at hstep
    split at hstep <;> cases hstep <;> rfl
  | reqTest id =>
    simp only [hpc, Option.some.injEq] at hstep
    obtain ⟨⟨i, a, inp⟩, -, hok⟩ := bind_eq_ok.mp hstep
    cases hok
    rfl
  | cmplCollect id =>
    simp only [hpc, Option.some.injEq] at hstep
    obtain ⟨⟨i, a, inp⟩, hd, hok⟩ := bind_eq_ok.mp hstep
    obtain ⟨hlive, hact, hinp⟩ := derefWriteInp_eq_ok.mp hd
    obtain ⟨hcmd, hsome⟩ := liveWrite_of_busy h (hbusy (by rw [hpc]; nofun)) hlive hact hinp
    cases hok
    exact backlogWith_setWriteInp { inp with bWList := [] } hlive hcmd hsome rfl rfl push
  | drain id compl got =>
    simp only [hpc, Option.some.injEq] at hstep
    obtain ⟨⟨i, a, inp⟩, hd, hok⟩ := bind_eq_ok.mp hstep
    obtain ⟨hlive, hact, hinp⟩ := derefWriteInp_eq_ok.mp hd
    obtain ⟨hcmd, hsome⟩ := liveWrite_of_busy h (hbusy (by rw [hpc]; nofun)) hlive hact hinp
    cases hqueue : inp.wQueue with
    | nil =>
      simp only [hqueue] at hok
      cases hok
      rfl
    | cons w rest =>
      simp only [hqueue] at hok
      cases hok
      exact backlogWith_setWriteInp { inp with
        wQueue := rest
        bWList := if got then inp.bWList ++ [w] else [w]
        writeReqCount := inp.writeReqCount + 1 } hlive hcmd hsome rfl rfl push
  | fire id compl =>
    simp only [hpc, Option.some.injEq] at hstep
    cases hstep
    rfl
  | addCmpl id compl =>
    simp only [hpc, Option.some.injEq] at hstep
    obtain ⟨⟨i, a, inp⟩, hd, hok⟩ := bind_eq_ok.mp hstep
    obtain ⟨hlive, hact, hinp⟩ := derefWriteInp_eq_ok.mp hd
    obtain ⟨hcmd, hsome⟩ := liveWrite_of_busy h (hbusy (by rw [hpc]; nofun)) hlive hact hinp
    cases hok
    exact backlogWith_setWriteInp { inp with writeCmplCount := inp.writeCmplCount + compl }
      hlive hcmd hsome rfl rfl push

/-- An item that is executed is the first one of the backlog. -/
theorem writeJobStep_backlog {push : Option PushPc} (h : FlowInv (flowWith s push)) {i : Nat}
    {j : WriteJob} (hjob : s.fileWrites[i]? = some j) {next : Option WriteJob}
    (hstep : s.writeJobStep E j = .ok (s', next)) :
    BacklogStep E (backlogWith s push) (backlogWith s' push) := by
  cases j with
  | queued =>
    obtain ⟨⟨id, a, inp⟩, hd, hok⟩ := bind_eq_ok.mp hstep
    obtain ⟨hlive, hact, -⟩ := derefWriteInp_eq_ok.mp hd
    cases hok
    have hnew : backlogWith (s.setAction id { a with actionStatus := .actionInProgress }) push
        = backlogWith s push :=
      backlogWith_congr
        (liveWrite_setAction { a with actionStatus := .actionInProgress } hlive hact rfl rfl)
        rfl rfl rfl push
    rw [hnew]
    exact .same
  | items id rest bytes =>
    cases rest with
    | nil =>
      cases hstep
      exact .same
    | cons w rest =>
      obtain ⟨_, -, hok⟩ := bind_eq_ok.mp hstep
      obtain ⟨⟨file, n⟩, hexec, hok⟩ := bind_eq_ok.mp hok
      cases hok
      obtain ⟨id', inp, hinp, hf, -⟩ := h.job (i := i) hjob
      obtain ⟨hjobs, -, -, hwriter⟩ := hf.job_only (i := i) hjob
      have hord : s.pushed = s.executed ++ (w :: rest ++ inp.wQueue) := by
        have hord := hf.order
        rw [unexecuted_of_token _ _ hwriter, hjobs, List.flatMap_singleton] at hord
        exact hord
      have hqueue : (backlogWith s push).queue = w :: (rest ++ inp.wQueue ++ countedTask push) := by
        show s.pushed.drop s.executed.length ++ countedTask push = _
        rw [hord, List.drop_append, List.drop_length, Nat.sub_self]
        simp
      have hnew : backlogWith { s with file := file, executed := s.executed ++ [w] } push
          = { backlogWith s push with
              queue := rest ++ inp.wQueue ++ countedTask push
              file := file } := by
        have hdrop : s.pushed.drop (s.executed ++ [w]).length = rest ++ inp.wQueue := by
          rw [hord, List.length_append, List.length_singleton, ← List.drop_drop, List.drop_append,
            List.drop_length, Nat.sub_self]
          rfl
        show Backlog.mk _ (s.pushed.drop (s.executed ++ [w]).length ++ countedTask push) _ _ _ = _
        rw [hdrop]
        rfl
      exact hnew ▸ .exec hqueue hexec
  | finish id bytes =>
    obtain ⟨⟨id', a⟩, hd, hok⟩ := bind_eq_ok.mp hstep
    obtain ⟨hlive, hact⟩ := derefAction_eq_ok.mp hd
    cases hok
    have hnew : backlogWith (s.setAction id' { a with
        returnValue := a.returnValue + bytes
        err := s.file.fd.errno }) push = backlogWith s push :=
      backlogWith_congr (liveWrite_setAction { a with
        returnValue := a.returnValue + bytes
        err := s.file.fd.errno } hlive hact rfl rfl) rfl rfl rfl push
    rw [hnew]
    exact .same
  | post id =>
    cases hstep
    exact .same

end Efio.Proofs.Evio
