import Efio.Lib.Progress
import Efio.Proofs.Evio.SyncReturn
import Efio.Spec.FlowWork

/-!
# `Efio.Proofs.Evio.Settling`: the background comes to rest
-/

set_option autoImplicit false

namespace Efio.Proofs.Evio

open Efio.Lib
open Efio.Evio
open Efio.Evio.PipelineState
open Efio.Spec
open Efio.Proofs.Spec

variable {E : Env} {s s' : PipelineState}

/-! ### Every step does some of the work -/

/-- The work of the flow of a state with a live write action. -/
theorem work_flowWith {id : Nat} {inp : WriteOper} (hinp : liveWrite s = some (id, inp))
    (push : Option PushPc) :
    (flowWith s push).work = 4 * s.fileWriterQueue.length + 11 * inp.wQueue.length +
      writerWork inp.bWList.length s.fileWriter +
      (s.fileWrites.map (jobWork inp.bWList.length)).sum :=
  WriteFlow.work_of_inp (c := flowWith s push) hinp

theorem work_lt {push : Option PushPc} {id id' : Nat} {inp inp' : WriteOper}
    (hinp : liveWrite s = some (id, inp)) (hinp' : liveWrite s' = some (id', inp'))
    (hlt : 4 * s'.fileWriterQueue.length + 11 * inp'.wQueue.length +
        writerWork inp'.bWList.length s'.fileWriter + (s'.fileWrites.map (jobWork inp'.bWList.length)).sum
      < 4 * s.fileWriterQueue.length + 11 * inp.wQueue.length +
        writerWork inp.bWList.length s.fileWriter + (s.fileWrites.map (jobWork inp.bWList.length)).sum) :
    (flowWith s' push).work < (flowWith s push).work := by
  rwa [work_flowWith hinp', work_flowWith hinp]

/-- While `file_writer` holds a batch, or is about to take one, there is no
task. -/
theorem no_jobs_of_batch {c : WriteFlow} {id : Nat} {inp : WriteOper} (hf : Flowing c id inp)
    (hbatch : writerToken c.writer = 1 ∨ c.tokens = 0) : c.jobs = [] := by
  have hsingle := hf.single
  unfold WriteFlow.tokens at hsingle hbatch
  exact List.eq_nil_of_length_eq_zero (by omega)

/-- Every step of `file_writer` lowers the work. -/
theorem fileWriterStep_work {push : Option PushPc} (h : FlowInv (flowWith s push))
    (hstep : s.fileWriterStep = some (.ok s')) :
    (flowWith s' push).work < (flowWith s push).work := by
  have hbusy (hne : s.fileWriter ≠ .idle) : ¬ (flowWith s push).Quiet := fun hq => hne hq.2.1
  unfold fileWriterStep at hstep
  cases hpc : s.fileWriter with
  | idle =>
    simp only [hpc] at hstep
    split at hstep
    · cases hstep
    all_goals
      rename_i hqueue
      cases hstep
      obtain ⟨id', inp, hinp⟩ := h.exists_inp fun hq => by cases hqueue.symm.trans hq.1
      change liveWrite s = some (id', inp) at hinp
      refine work_lt hinp hinp ?_
      simp only [hqueue, hpc, writerWork, List.length_cons]
      omega
  | reqTest id =>
    simp only [hpc, Option.some.injEq] at hstep
    obtain ⟨⟨i, a, inp⟩, hd, hok⟩ := bind_eq_ok.mp hstep
    obtain ⟨hlive, hact, hinp⟩ := derefWriteInp_eq_ok.mp hd
    obtain ⟨-, hsome⟩ := liveWrite_of_busy h (hbusy (by simp [hpc])) hlive hact hinp
    cases hok
    refine work_lt hsome hsome ?_
    simp only [hpc]
    split <;> simp only [writerWork] <;> omega
  | cmplCollect id =>
    simp only [hpc, Option.some.injEq] at hstep
    obtain ⟨⟨i, a, inp⟩, hd, hok⟩ := bind_eq_ok.mp hstep
    obtain ⟨hlive, hact, hinp⟩ := derefWriteInp_eq_ok.mp hd
    obtain ⟨hcmd, hsome⟩ := liveWrite_of_busy h (hbusy (by simp [hpc])) hlive hact hinp
    have hjobs : s.fileWrites = [] :=
      no_jobs_of_batch (h.flowing hsome) (Or.inl (show writerToken s.fileWriter = 1 by rw [hpc]; rfl))
    cases hok
    refine work_lt hsome (liveWrite_setWriteInp s i hlive hcmd _) ?_
    simp only [setWriteInp, setAction, hpc, hjobs, writerWork, List.map_nil]
    omega
  | drain id compl got =>
    simp only [hpc, Option.some.injEq] at hstep
    obtain ⟨⟨i, a, inp⟩, hd, hok⟩ := bind_eq_ok.mp hstep
    obtain ⟨hlive, hact, hinp⟩ := derefWriteInp_eq_ok.mp hd
    obtain ⟨hcmd, hsome⟩ := liveWrite_of_busy h (hbusy (by simp [hpc])) hlive hact hinp
    have hf := h.flowing hsome
    cases hqueue : inp.wQueue with
    | nil =>
      simp only [hqueue] at hok
      cases hok
      refine work_lt hsome hsome ?_
      cases got with
      | true =>
        simp only [hpc, if_true, writerWork]
        omega
      | false =>
        have hafter := writerWork_afterDrain inp.bWList.length id compl
        have hbefore : writerWork inp.bWList.length (.drain id compl false) = 2 := rfl
        simp only [hpc, Bool.false_eq_true, if_false]
        omega
    | cons w rest =>
      have hjobs : s.fileWrites = [] := by
        refine no_jobs_of_batch hf ?_
        cases got with
        | true => exact Or.inl (show writerToken s.fileWriter = 1 by rw [hpc]; rfl)
        | false => exact Or.inr (hf.fresh id compl hpc)
      simp only [hqueue] at hok
      cases hok
      refine work_lt hsome (liveWrite_setWriteInp s i hlive hcmd _) ?_
      cases got <;> simp only [setWriteInp, setAction, hpc, hjobs, hqueue, if_true, Bool.false_eq_true,
        if_false, writerWork, List.map_nil, List.length_append, List.length_cons, List.length_nil] <;> omega
  | fire id compl =>
    simp only [hpc, Option.some.injEq] at hstep
    cases hstep
    obtain ⟨id', inp, hinp⟩ := h.exists_inp (hbusy (by simp [hpc]))
    have hjobs : s.fileWrites = [] :=
      no_jobs_of_batch (h.flowing hinp) (Or.inl (show writerToken s.fileWriter = 1 by rw [hpc]; rfl))
    change liveWrite s = some (id', inp) at hinp
    refine work_lt hinp hinp ?_
    have hafter := writerWork_afterDrain inp.bWList.length id compl
    have hbefore : writerWork inp.bWList.length (.fire id compl) = inp.bWList.length + 10 := rfl
    simp only [hpc, hjobs, jobWork, List.nil_append, List.map_cons, List.map_nil, List.sum_cons,
      List.sum_nil]
    omega
  | addCmpl id compl =>
    simp only [hpc, Option.some.injEq] at hstep
    obtain ⟨⟨i, a, inp⟩, hd, hok⟩ := bind_eq_ok.mp hstep
    obtain ⟨hlive, hact, hinp⟩ := derefWriteInp_eq_ok.mp hd
    obtain ⟨hcmd, hsome⟩ := liveWrite_of_busy h (hbusy (by simp [hpc])) hlive hact hinp
    cases hok
    refine work_lt hsome (liveWrite_setWriteInp s i hlive hcmd _) ?_
    simp only [setWriteInp, setAction, hpc, writerWork]
    omega

/-- Every step of a task of `ef_file_write` lowers the work. -/
theorem writeJobStep_work {push : Option PushPc} (h : FlowInv (flowWith s push)) {i : Nat}
    {j : WriteJob} (hjob : s.fileWrites[i]? = some j) {next : Option WriteJob}
    (hstep : s.writeJobStep E j = .ok (s', next)) :
    (flowWith { s' with fileWrites := putJob s.fileWrites i next } push).work
      < (flowWith s push).work := by
  obtain ⟨id, inp, hsome, hf, -⟩ := h.job hjob
  obtain ⟨hjobs, rfl, -, -⟩ := hf.job_only (c := flowWith s push) hjob
  have hbusy : ¬ (flowWith s push).Quiet := fun hq => by cases hjobs.symm.trans hq.2.2.1
  change s.fileWrites = [j] at hjobs
  change liveWrite s = some (id, inp) at hsome
  cases j with
  | queued =>
    obtain ⟨⟨i, a, inp'⟩, hd, hok⟩ := bind_eq_ok.mp hstep
    obtain ⟨hlive, hact, hinp⟩ := derefWriteInp_eq_ok.mp hd
    obtain ⟨-, hsome'⟩ := liveWrite_of_busy h hbusy hlive hact hinp
    obtain ⟨rfl, rfl⟩ := Prod.mk.inj (Option.some.inj (hsome.symm.trans hsome'))
    cases hok
    refine work_lt hsome ((liveWrite_setAction { a with actionStatus := .actionInProgress } hlive hact
      rfl rfl).trans hsome) ?_
    simp [setAction, putJob, hjobs, jobWork]
  | items id rest bytes =>
    cases rest with
    | nil =>
      cases hstep
      refine work_lt hsome hsome ?_
      simp [putJob, hjobs, jobWork]
    | cons w rest =>
      obtain ⟨_, -, hok⟩ := bind_eq_ok.mp hstep
      obtain ⟨⟨file, n⟩, -, hok⟩ := bind_eq_ok.mp hok
      cases hok
      refine work_lt hsome hsome ?_
      simp [putJob, hjobs, jobWork]
  | finish id' bytes =>
    obtain ⟨⟨i, a⟩, hd, hok⟩ := bind_eq_ok.mp hstep
    obtain ⟨hlive, hact⟩ := derefAction_eq_ok.mp hd
    cases hok
    refine work_lt hsome ((liveWrite_setAction { a with
      returnValue := a.returnValue + bytes
      err := s.file.fd.errno } hlive hact rfl rfl).trans hsome) ?_
    simp [setAction, putJob, hjobs, jobWork]
  | post id' =>
    cases hstep
    refine work_lt hsome hsome ?_
    simp only [putJob, hjobs, jobWork, Option.elim_none, List.eraseIdx_zero, List.tail_cons,
      List.map_nil, List.map_cons, List.sum_cons, List.sum_nil, List.length_append,
      List.length_singleton]
    omega

/-! ### What can go wrong -/

theorem derefWriteInp_of_liveWrite {id : Nat} {inp : WriteOper} (hsome : liveWrite s = some (id, inp)) :
    ∃ a, s.derefWriteInp = .ok (id, a, inp) := by
  obtain ⟨hlive, a, hact, -, hinp⟩ := liveWrite_eq_some.mp hsome
  exact ⟨a, derefWriteInp_eq_ok.mpr ⟨hlive, hact, hinp⟩⟩

/-- `file_writer` finds the action of its event. -/
theorem fileWriterStep_ne_error {push : Option PushPc} (h : FlowInv (flowWith s push)) (e : Fault) :
    s.fileWriterStep ≠ some (.error e) := by
  intro hstep
  have hderef (hne : s.fileWriter ≠ .idle) : ∃ id a inp, s.derefWriteInp = .ok (id, a, inp) := by
    obtain ⟨id, inp, hinp⟩ := h.exists_inp fun hq => hne hq.2.1
    obtain ⟨a, hd⟩ := derefWriteInp_of_liveWrite hinp
    exact ⟨id, a, inp, hd⟩
  unfold fileWriterStep at hstep
  cases hpc : s.fileWriter with
  | idle =>
    simp only [hpc] at hstep
    split at hstep <;> cases hstep
  | fire id compl =>
    simp only [hpc] at hstep
    cases hstep
  | drain id compl got =>
    obtain ⟨i, a, inp, hd⟩ := hderef (by rw [hpc]; nofun)
    simp only [hpc, hd, ok_bind] at hstep
    split at hstep <;> cases hstep
  | _ =>
    obtain ⟨i, a, inp, hd⟩ := hderef (by rw [hpc]; nofun)
    simp only [hpc, hd, ok_bind] at hstep
    cases hstep

/-- The execution of the next item of a task fails. -/
def ItemFails (E : Env) (s : PipelineState) (e : Fault) : Prop :=
  ∃ (i id : Nat) (w : WriteTask) (rest : List WriteTask) (bytes : Nat),
    s.fileWrites[i]? = some (.items id (w :: rest) bytes) ∧ execTask E s.file w = .error e

/-- A task of `ef_file_write` finds its action as well; only the item it
executes may fail. -/
theorem itemFails_of_error {push : Option PushPc} (h : FlowInv (flowWith s push)) {i : Nat}
    {j : WriteJob} (hjob : s.fileWrites[i]? = some j) {e : Fault}
    (hstep : s.writeJobStep E j = .error e) : ItemFails E s e := by
  obtain ⟨id, inp, hsome, -, -⟩ := h.job hjob
  obtain ⟨hlive, a, hact, -, hinp⟩ := liveWrite_eq_some.mp (show liveWrite s = some (id, inp) from hsome)
  cases j with
  | queued =>
    have hd : s.derefWriteInp = .ok (id, a, inp) := derefWriteInp_eq_ok.mpr ⟨hlive, hact, hinp⟩
    simp only [writeJobStep, hd, ok_bind] at hstep
    cases hstep
  | items id' rest bytes =>
    cases rest with
    | nil => cases hstep
    | cons w rest =>
      simp only [writeJobStep, derefRecord_of_live hlive, ok_bind] at hstep
      cases hexec : execTask E s.file w with
      | error e' =>
        rw [hexec] at hstep
        cases hstep
        exact ⟨i, id', w, rest, bytes, hjob, hexec⟩
      | ok r =>
        rw [hexec] at hstep
        cases hstep
  | finish id' bytes =>
    simp only [writeJobStep, derefAction_of_live hlive hact, ok_bind] at hstep
    cases hstep
  | post id' => cases hstep

/-! ### The background alone -/

/-- The steps of `file_writer` and of the tasks of `ef_file_write`. -/
def Background (_ : PipelineState) : PipelineLabel → Prop
  | .fileWriter | .writeJob _ => True
  | _ => False

/-- The background has nothing left to do. What was pushed has been
executed, unless the push has not yet been announced. -/
structure BackgroundDone (s : PipelineState) : Prop where
  queue : s.fileWriterQueue = []
  writer : s.fileWriter = .idle
  jobs : s.fileWrites = []
  executed : pushAnnouncing (pushOf s) = false → s.executed = s.pushed
  counters : pushCounted (pushOf s) = 0 → pushAnnouncing (pushOf s) = false → ∀ id inp,
    liveWrite s = some (id, inp) →
    inp.wQueue = [] ∧ inp.writeTotreqCount = inp.writeCmplCount

instance : DecidableRel Background := fun _ l =>
  match l with
  | .fileWriter | .writeJob _ => inferInstanceAs (Decidable True)
  | .call _ _ | .foreground _ _ | .slowSync | .readJob _ | .closeJob _ _ =>
    inferInstanceAs (Decidable False)

theorem Background.quietFree {l : PipelineLabel} (h : Background s l) : QuietFree s l := by
  intro hfrees
  cases l with
  | fileWriter => cases hfrees
  | writeJob i => cases hfrees
  | _ => exact h.elim

/-- A step of a job that fails. -/
theorem jobStep_eq_error {J : Type} {jobs : List J} {i : Nat}
    {stepJob : J → Except Fault (PipelineState × Option J)} {put : PipelineState → List J → PipelineState}
    {e : Fault} (hstep : jobStep jobs i stepJob put = some (.error e)) :
    ∃ j, jobs[i]? = some j ∧ stepJob j = .error e := by
  obtain ⟨j, hjob, hrun⟩ := Option.map_eq_some_iff.mp hstep
  refine ⟨j, hjob, ?_⟩
  cases hj : stepJob j with
  | error e' =>
    rw [hj] at hrun
    cases hrun
    rfl
  | ok r =>
    rw [hj] at hrun
    cases hrun

/-- Where the background is at rest without a fault, it has nothing left to
do. -/
theorem backgroundDone_of_rest (h : PipelineInv s) (hfault : s.fault = none)
    (hrest : AtRest (PipelineState.step E) Background s) : BackgroundDone s := by
  have hnone {l : PipelineLabel} (hback : Background s l) : s.threadStep E l = none := by
    have hstep := hrest l hback
    unfold PipelineState.step at hstep
    rw [hfault] at hstep
    exact Option.map_eq_none_iff.mp hstep
  have hjobs : s.fileWrites = [] := by
    refine List.eq_nil_iff_forall_not_mem.mpr fun j hj => ?_
    obtain ⟨i, hi⟩ := List.mem_iff_getElem?.mp hj
    have hstep := hnone (l := .writeJob i) trivial
    simp only [threadStep, jobStep, hi] at hstep
    cases hstep
  obtain ⟨hwriter, hqueue⟩ : s.fileWriter = .idle ∧ s.fileWriterQueue = [] := by
    have hstep := hnone (l := .fileWriter) trivial
    simp only [threadStep, fileWriterStep] at hstep
    split at hstep
    · split at hstep
      · exact ⟨by assumption, by assumption⟩
      all_goals cases hstep
    all_goals cases hstep
  refine ⟨hqueue, hwriter, hjobs, fun hann => ?_, fun hcounted hann id inp hsome =>
    (h.flow.flowing hsome).settled hqueue hwriter hjobs hcounted hann⟩
  cases hlw : liveWrite s with
  | none => exact (h.flow.quiet hlw).2.symm
  | some r =>
    obtain ⟨id, inp⟩ := r
    have hf := h.flow.flowing (show (flow s).inp = some (id, inp) from hlw)
    have htok : (flow s).tokens = 0 := by
      show s.fileWrites.length + s.fileWriterQueue.countP isCmpl + writerToken s.fileWriter = 0
      rw [hjobs, hqueue, hwriter]
      rfl
    have hempty : inp.wQueue = [] := by
      by_contra hne
      rcases hf.noticed hne with hone | ⟨ev, hmem, -⟩ | hlook | hpush
      · omega
      · change ev ∈ s.fileWriterQueue at hmem
        rw [hqueue] at hmem
        cases hmem
      · change writerLooking s.fileWriter = true at hlook
        rw [hwriter] at hlook
        cases hlook
      · exact Bool.false_ne_true (hann.symm.trans hpush)
    have hord := hf.order
    rw [unexecuted_of_token _ _ (show writerToken s.fileWriter = 0 by rw [hwriter]; rfl), hempty,
      show (flow s).jobs = [] from hjobs] at hord
    simp only [List.flatMap_nil, List.append_nil] at hord
    exact hord.symm

end Efio.Proofs.Evio
