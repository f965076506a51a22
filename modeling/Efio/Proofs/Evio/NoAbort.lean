import Efio.Proofs.Evio.PipelineFlow

/-!
# `Efio.Proofs.Evio.NoAbort`: the code without `EV_ABORT`

`NoAbort x` says that `x` does not end in `EV_ABORT`. The accesses to the
record and to the action do not, and a chain of steps does not when none
of its steps does (`NoAbort.bind`). So none of the shared pieces of code
ends in `EV_ABORT`, and what is left are the few places that name it.
-/

set_option autoImplicit false

namespace Efio.Proofs.Evio

open Efio.Lib
open Efio.Evio
open Efio.Evio.PipelineState

variable {E : Env} {s : PipelineState}

/-- The step does not end in `EV_ABORT`. -/
def NoAbort {α : Type} (x : Except Fault α) : Prop := ∀ text, x ≠ .error (.evAbort text)

section Chains

variable {α β : Type}

theorem noAbort_ok (a : α) : NoAbort (.ok a : Except Fault α) := nofun

theorem noAbort_pure (a : α) : NoAbort (pure a : Except Fault α) := nofun

theorem NoAbort.bind {x : Except Fault α} {f : α → Except Fault β} (hx : NoAbort x)
    (hf : ∀ a, x = .ok a → NoAbort (f a)) : NoAbort (x >>= f) := by
  cases x with
  | error e => exact fun text h => hx text (by cases h; rfl)
  | ok a => exact hf a rfl

theorem NoAbort.ite {c : Prop} [Decidable c] {x y : Except Fault α} (hx : NoAbort x)
    (hy : NoAbort y) : NoAbort (if c then x else y) := by
  split
  · exact hx
  · exact hy

end Chains

/-! ### The accesses -/

theorem noAbort_derefRecord (s : PipelineState) : NoAbort s.derefRecord := by
  unfold derefRecord
  exact .ite (noAbort_ok _) nofun

theorem noAbort_derefAction (s : PipelineState) : NoAbort s.derefAction := by
  refine (noAbort_derefRecord s).bind fun _ _ => ?_
  cases s.action <;> nofun

theorem noAbort_derefWriteInp (s : PipelineState) : NoAbort s.derefWriteInp := by
  refine (noAbort_derefAction s).bind fun ⟨id, a⟩ _ => ?_
  simp only
  cases a.writeInp <;> nofun

theorem noAbort_testAction (s : PipelineState) : NoAbort s.testAction := by
  refine (noAbort_derefRecord s).bind fun _ _ => ?_
  cases s.action <;> nofun

/-! ### The shared pieces of code -/

theorem noAbort_pushStep (p : PushPc) : NoAbort (s.pushStep p) := by
  cases p with
  | count w => exact (noAbort_derefWriteInp s).bind fun _ _ => noAbort_pure _
  | enqueue w => exact (noAbort_derefWriteInp s).bind fun _ _ => noAbort_pure _
  | init id => exact (noAbort_derefAction s).bind fun _ _ => noAbort_pure _
  | post id => exact noAbort_pure _

theorem noAbort_lowEfSync : NoAbort s.lowEfSync := by
  refine (noAbort_testAction s).bind fun r _ => ?_
  cases r with
  | none => exact noAbort_pure _
  | some r =>
    refine .ite (noAbort_pure _) ?_
    cases r.2.writeInp with
    | none => nofun
    | some inp => exact .ite (noAbort_pure _) (noAbort_pure _)

theorem noAbort_freeStep (p : FreePc) : NoAbort (s.freeStep p) := by
  cases p with
  | acquire expected => exact (noAbort_derefRecord s).bind fun _ _ => noAbort_pure _
  | cleanup => exact (noAbort_derefAction s).bind fun _ _ => .ite nofun (noAbort_pure _)
  | setNull => exact (noAbort_derefRecord s).bind fun _ _ => noAbort_pure _
  | release => exact (noAbort_derefRecord s).bind fun _ _ => noAbort_pure _

theorem noAbort_allocStep (oper : FileOper) (p : AllocPc) : NoAbort (s.allocStep oper p) := by
  cases p <;> exact (noAbort_derefRecord s).bind fun _ _ => noAbort_pure _

theorem noAbort_setStep (p : SetPc) : NoAbort (s.setStep p) := by
  cases p with
  | readTotreq =>
    refine (noAbort_testAction s).bind fun r _ => ?_
    cases r with
    | none => exact noAbort_pure _
    | some r =>
      refine .ite (noAbort_pure _) ?_
      cases r.2.writeInp <;> nofun
  | compare totreq => exact (noAbort_derefWriteInp s).bind fun _ _ => noAbort_pure _
  | store => exact (noAbort_derefAction s).bind fun _ _ => noAbort_pure _

theorem noAbort_syncStep (p : SyncPc) : NoAbort (s.syncStep p) := by
  cases p with
  | lockHandle => exact noAbort_pure _
  | checkFile =>
    refine .ite (noAbort_pure _) ((noAbort_derefRecord s).bind fun _ _ => ?_)
    exact .ite (noAbort_pure _) (.ite (noAbort_pure _) (noAbort_pure _))
  | lockAction => exact (noAbort_derefRecord s).bind fun _ _ => noAbort_pure _
  | suspendWrites => exact (noAbort_derefRecord s).bind fun _ _ => noAbort_pure _
  | testAction =>
    refine (noAbort_testAction s).bind fun r _ => ?_
    cases r <;> exact noAbort_pure _
  | awaitComplete => exact (noAbort_derefAction s).bind fun _ _ => noAbort_pure _
  | lowSync => exact noAbort_lowEfSync.bind fun _ _ => noAbort_pure _
  | lowSyncPush p => exact (noAbort_pushStep p).bind fun _ _ => noAbort_pure _
  | fsync =>
    refine (noAbort_testAction s).bind fun r _ => ?_
    cases r with
    | none => exact noAbort_pure _
    | some r =>
      refine .ite (noAbort_pure _) ?_
      cases r.2.writeInp <;> nofun
  | fsyncPush p => exact (noAbort_pushStep p).bind fun _ _ => noAbort_pure _
  | resumeWrites => exact (noAbort_derefRecord s).bind fun _ _ => noAbort_pure _
  | unlockAction => exact (noAbort_derefRecord s).bind fun _ _ => noAbort_pure _
  | unlockHandle => exact noAbort_pure _

/-! ### The background -/

theorem noAbort_slowSyncStep {r : Except Fault PipelineState} (h : s.slowSyncStep = some r) :
    NoAbort r := by
  unfold slowSyncStep at h
  split at h
  · split at h <;> cases h
    exact noAbort_ok _
  · rename_i p _
    cases h
    exact (noAbort_syncStep p).bind fun _ _ => noAbort_pure _

theorem noAbort_fileWriterStep {r : Except Fault PipelineState} (h : s.fileWriterStep = some r) :
    NoAbort r := by
  unfold fileWriterStep at h
  split at h
  · split at h <;> cases h <;> exact noAbort_ok _
  · cases h
    exact (noAbort_derefWriteInp s).bind fun _ _ => noAbort_pure _
  · cases h
    exact (noAbort_derefWriteInp s).bind fun _ _ => noAbort_pure _
  · cases h
    refine (noAbort_derefWriteInp s).bind fun ⟨id, a, inp⟩ _ => ?_
    simp only
    cases inp.wQueue <;> exact noAbort_pure _
  · cases h
    exact noAbort_ok _
  · cases h
    exact (noAbort_derefWriteInp s).bind fun _ _ => noAbort_pure _

theorem noAbort_readJobStep (j : ReadJob) : NoAbort (s.readJobStep E j) := by
  cases j with
  | queued page => exact (noAbort_derefAction s).bind fun _ _ => noAbort_pure _
  | load page => exact (noAbort_derefRecord s).bind fun _ _ => noAbort_pure _
  | publish ret err => exact (noAbort_derefAction s).bind fun _ _ => noAbort_pure _

/-- A step of a job that does not end in `EV_ABORT`. -/
theorem noAbort_jobStep {J : Type} {jobs : List J} {i : Nat}
    {stepJob : J → Except Fault (PipelineState × Option J)} {put : PipelineState → List J → PipelineState}
    {r : Except Fault PipelineState} (h : jobStep jobs i stepJob put = some r)
    (hstep : ∀ j, jobs[i]? = some j → NoAbort (stepJob j)) : NoAbort r := by
  obtain ⟨j, hjob, rfl⟩ := Option.map_eq_some_iff.mp h
  exact (hstep j hjob).bind fun _ _ => noAbort_pure _

/-! ### The start of a call -/

theorem noAbort_chkReadConditions (v : View) (nbyte : Nat) :
    NoAbort (s.chkReadConditions E v nbyte) := by
  refine .ite (noAbort_pure _) ((noAbort_derefRecord s).bind fun _ _ => ?_)
  refine .ite (noAbort_pure _) (.ite (noAbort_pure _) (.ite (noAbort_pure _) ?_))
  exact .ite (noAbort_pure _) (noAbort_pure _)

theorem noAbort_readDispatch (nbyte : Nat) (pageOffset : Int) :
    NoAbort (s.readDispatch nbyte pageOffset) := by
  refine (noAbort_testAction s).bind fun r _ => ?_
  cases r with
  | none => exact noAbort_pure _
  | some r =>
    simp only
    split
    · exact .ite (noAbort_pure _) (noAbort_pure _)
    · refine .ite (noAbort_pure _) (.ite (noAbort_pure _) ?_)
      exact .ite (noAbort_pure _) (noAbort_pure _)
    · exact noAbort_pure _
    · exact .ite (noAbort_pure _) (noAbort_pure _)
    · exact .ite (noAbort_pure _) (noAbort_pure _)

end Efio.Proofs.Evio
