import Efio.Proofs.Evio.DrainStep

/-!
# `Efio.Proofs.Evio.OpenFlags`: the stored open flags never change

`ef_file_open` stores the flags, and no later step writes them. `KeepsFlags x`
says so of a piece of code: if it ends without a fault, the flags are
`flags` still. A chain of steps keeps them when each of its last steps does
(`KeepsFlags.bind`).
-/

set_option autoImplicit false

namespace Efio.Proofs.Evio

open Efio.Lib
open Efio.Evio
open Efio.Evio.PipelineState

variable {E : Env} {s s' : PipelineState} {flags : OFlag}

/-- The flags are `flags` in every result. -/
def KeepsFlags (flags : OFlag) {α : Type} (result : α → PipelineState) (x : Except Fault α) : Prop :=
  ∀ a, x = .ok a → (result a).file.oflag = flags

section Chains

variable {α β : Type} {result : α → PipelineState}

theorem keepsFlags_pure {a : α} (h : (result a).file.oflag = flags) :
    KeepsFlags flags result (pure a : Except Fault α) := by
  intro b hb
  cases hb
  exact h

theorem keepsFlags_ok {a : α} (h : (result a).file.oflag = flags) : KeepsFlags flags result (.ok a) := keepsFlags_pure h

theorem keepsFlags_error {e : Fault} : KeepsFlags flags result (.error e) := by
  intro b hb
  cases hb

theorem KeepsFlags.bind {x : Except Fault β} {f : β → Except Fault α}
    (h : ∀ b, x = .ok b → KeepsFlags flags result (f b)) : KeepsFlags flags result (x >>= f) := by
  intro a ha
  obtain ⟨b, hx, hf⟩ := bind_eq_ok.mp ha
  exact h b hx a hf

theorem KeepsFlags.ite {c : Prop} [Decidable c] {x y : Except Fault α} (hx : KeepsFlags flags result x)
    (hy : KeepsFlags flags result y) : KeepsFlags flags result (if c then x else y) := by
  split
  · exact hx
  · exact hy

end Chains

/-! ### The shared pieces of code -/

theorem keepsFlags_pushStep (h : s.file.oflag = flags) (p : PushPc) : KeepsFlags flags Prod.fst (s.pushStep p) := by
  cases p with
  | count w | enqueue w | init id => exact .bind fun _ _ => keepsFlags_pure h
  | post id => exact keepsFlags_pure h

theorem keepsFlags_lowEfSync (h : s.file.oflag = flags) : KeepsFlags flags Prod.fst s.lowEfSync := by
  refine .bind fun r _ => ?_
  cases r with
  | none => exact keepsFlags_pure h
  | some r =>
    refine .ite (keepsFlags_pure h) ?_
    cases r.2.writeInp with
    | none => exact keepsFlags_error
    | some inp => exact .ite (keepsFlags_pure h) (keepsFlags_pure h)

theorem keepsFlags_freeStep (h : s.file.oflag = flags) (p : FreePc) : KeepsFlags flags Prod.fst (s.freeStep p) := by
  cases p with
  | acquire expected | setNull | release => exact .bind fun _ _ => keepsFlags_pure h
  | cleanup => exact .bind fun _ _ => .ite keepsFlags_error (keepsFlags_pure h)

theorem keepsFlags_allocStep (h : s.file.oflag = flags) (oper : FileOper) (p : AllocPc) :
    KeepsFlags flags Prod.fst (s.allocStep oper p) := by
  cases p <;> exact .bind fun _ _ => keepsFlags_pure h

theorem keepsFlags_setStep (h : s.file.oflag = flags) (p : SetPc) : KeepsFlags flags Prod.fst (s.setStep p) := by
  cases p with
  | readTotreq =>
    refine .bind fun r _ => ?_
    cases r with
    | none => exact keepsFlags_pure h
    | some r =>
      refine .ite (keepsFlags_pure h) ?_
      cases r.2.writeInp with
      | none => exact keepsFlags_error
      | some inp => exact keepsFlags_pure h
  | compare totreq | store => exact .bind fun _ _ => keepsFlags_pure h

theorem keepsFlags_syncStep (h : s.file.oflag = flags) (p : SyncPc) : KeepsFlags flags Prod.fst (s.syncStep p) := by
  cases p with
  | lockHandle | unlockHandle => exact keepsFlags_pure h
  | checkFile =>
    refine .ite (keepsFlags_pure h) (.bind fun _ _ => ?_)
    exact .ite (keepsFlags_pure h) (.ite (keepsFlags_pure h) (keepsFlags_pure h))
  | lockAction | suspendWrites | awaitComplete | resumeWrites | unlockAction =>
    exact .bind fun _ _ => keepsFlags_pure h
  | testAction =>
    refine .bind fun r _ => ?_
    cases r <;> exact keepsFlags_pure h
  | lowSync => exact .bind fun a ha => keepsFlags_pure (keepsFlags_lowEfSync h a ha)
  | lowSyncPush p | fsyncPush p => exact .bind fun a ha => keepsFlags_pure (keepsFlags_pushStep h p a ha)
  | fsync =>
    refine .bind fun r _ => ?_
    cases r with
    | none => exact keepsFlags_pure h
    | some r =>
      refine .ite (keepsFlags_pure h) ?_
      cases r.2.writeInp with
      | none => exact keepsFlags_error
      | some inp => exact keepsFlags_pure h

theorem keepsFlags_closeStep (h : s.file.oflag = flags) (closeFails : Bool) (j : CloseJob) :
    KeepsFlags flags Prod.fst (s.closeStep closeFails j) := by
  cases j with
  | start =>
    refine .bind fun r _ => ?_
    cases r <;> exact keepsFlags_pure h
  | publish ret | complete | freeRecord => exact .bind fun _ _ => keepsFlags_pure h
  | closeStatus =>
    refine .bind fun _ _ => .ite (keepsFlags_pure h) (.bind fun r _ => ?_)
    cases r with
    | none => exact keepsFlags_pure h
    | some r => exact .ite (keepsFlags_pure h) (.ite (keepsFlags_pure h) (keepsFlags_pure h))
  | lockHandle | clearSlot | unlockHandle => exact keepsFlags_pure h
  | cleanup => exact .ite keepsFlags_error (.bind fun _ _ => keepsFlags_pure h)
  | freeing p k =>
    refine .bind fun a ha => ?_
    have hfree := keepsFlags_freeStep h p a ha
    obtain ⟨s₁, next⟩ := a
    cases next with
    | some p => exact keepsFlags_pure hfree
    | none => cases k <;> exact keepsFlags_pure hfree

/-! ### The background -/

theorem keepsFlags_writeJobStep (h : s.file.oflag = flags) (j : WriteJob) :
    KeepsFlags flags Prod.fst (s.writeJobStep E j) := by
  cases j with
  | queued | finish id bytes => exact .bind fun _ _ => keepsFlags_pure h
  | items id rest bytes =>
    cases rest with
    | nil => exact keepsFlags_pure h
    | cons w rest =>
      refine .bind fun _ _ => .bind fun r hr => ?_
      obtain ⟨f, n⟩ := r
      exact keepsFlags_pure ((execTask_oflag hr).trans h)
  | post id => exact keepsFlags_pure h

theorem keepsFlags_readJobStep (h : s.file.oflag = flags) (j : ReadJob) :
    KeepsFlags flags Prod.fst (s.readJobStep E j) := by
  cases j with
  | queued page | publish ret err => exact .bind fun _ _ => keepsFlags_pure h
  | load page =>
    refine .bind fun _ _ => keepsFlags_pure ?_
    by_cases hbuffer : s.file.buf.buffer.isNone = true
    · simpa [hbuffer, EfFile.allocBuffer] using h
    · simpa [hbuffer] using h

theorem keepsFlags_jobStep {J : Type} {jobs : List J} {i : Nat}
    {stepJob : J → Except Fault (PipelineState × Option J)} {put : PipelineState → List J → PipelineState}
    {r : Except Fault PipelineState} (hr : jobStep jobs i stepJob put = some r)
    (hstep : ∀ j, KeepsFlags flags Prod.fst (stepJob j)) (hput : ∀ s js, (put s js).file = s.file) :
    KeepsFlags flags id r := by
  obtain ⟨j, hjob, rfl⟩ := Option.map_eq_some_iff.mp hr
  exact .bind fun a ha => keepsFlags_pure ((congrArg EfFile.oflag (hput _ _)).trans (hstep j a ha))

theorem keepsFlags_slowSyncStep (h : s.file.oflag = flags) {r : Except Fault PipelineState}
    (hr : s.slowSyncStep = some r) : KeepsFlags flags id r := by
  unfold slowSyncStep at hr
  split at hr
  · split at hr <;> cases hr
    exact keepsFlags_ok h
  · rename_i p _
    cases hr
    exact .bind fun a ha => keepsFlags_pure (keepsFlags_syncStep h p a ha)

theorem keepsFlags_fileWriterStep (h : s.file.oflag = flags) {r : Except Fault PipelineState}
    (hr : s.fileWriterStep = some r) : KeepsFlags flags id r := by
  unfold fileWriterStep at hr
  split at hr
  · split at hr <;> cases hr <;> exact keepsFlags_ok h
  · cases hr
    exact .bind fun _ _ => keepsFlags_pure h
  · cases hr
    exact .bind fun _ _ => keepsFlags_pure h
  · cases hr
    refine .bind fun a _ => ?_
    cases hqueue : a.2.2.wQueue <;> simp only [hqueue] <;> exact keepsFlags_pure h
  · cases hr
    exact keepsFlags_ok h
  · cases hr
    exact .bind fun _ _ => keepsFlags_pure h

/-! ### The calls -/

theorem keepsFlags_readDispatch (h : s.file.oflag = flags) (nbyte : Nat) (pageOffset : Int) :
    KeepsFlags flags id (s.readDispatch nbyte pageOffset) := by
  refine .bind fun r _ => ?_
  cases r with
  | none => exact keepsFlags_pure h
  | some r =>
    simp only
    split
    · exact .ite (keepsFlags_pure h) (keepsFlags_pure h)
    · refine .ite (keepsFlags_pure h) (.ite (keepsFlags_pure h) ?_)
      exact .ite (keepsFlags_pure h) (keepsFlags_pure h)
    · exact keepsFlags_pure h
    · exact .ite (keepsFlags_pure h) (keepsFlags_pure h)
    · exact .ite (keepsFlags_pure h) (keepsFlags_pure h)

theorem keepsFlags_readStep (h : s.file.oflag = flags) (v : View) (pc : ForegroundPc) :
    KeepsFlags flags id (s.readStep E v pc) := by
  cases pc with
  | readSnapshot nbyte => exact .bind fun _ _ => keepsFlags_readDispatch h nbyte _
  | readTest nbyte pageOffset => exact .bind fun _ _ => .ite (keepsFlags_pure h) (keepsFlags_pure h)
  | readDrop nbyte pageOffset =>
    refine .bind fun r _ => ?_
    cases r with
    | none => exact keepsFlags_pure h
    | some r => exact .ite (keepsFlags_pure h) (keepsFlags_pure h)
  | readBuffer nbyte pageOffset =>
    refine .bind fun _ _ => ?_
    cases s.file.buf.buffer with
    | none =>
      refine .bind fun r _ => ?_
      cases r <;> exact keepsFlags_pure h
    | some b =>
      -- The transfer moves the offset and drops a page that is used up.
      refine .bind fun r hr => ?_
      obtain ⟨f, ret, err, bytes⟩ := r
      exact keepsFlags_pure ((readTransfer_frame hr).1.trans h)
  | readFire nbyte =>
    exact .bind fun _ _ => .ite keepsFlags_error (.ite keepsFlags_error (keepsFlags_pure h))
  | readEnqueue nbyte => exact .bind fun _ _ => keepsFlags_pure h
  | _ => exact keepsFlags_pure h

theorem keepsFlags_writeStep (h : s.file.oflag = flags) (pc : ForegroundPc) :
    KeepsFlags flags id (s.writeStep E pc) := by
  cases pc with
  | writeSuspend buf | writeEnsure buf => exact .bind fun _ _ => keepsFlags_pure h
  | writeTest buf =>
    refine .bind fun r _ => ?_
    cases r with
    | none => exact keepsFlags_pure h
    | some r => exact .ite (keepsFlags_pure h) (.ite (keepsFlags_pure h) (keepsFlags_pure h))
  | writeLoop buf done =>
    refine .ite (keepsFlags_pure h) (.bind fun r _ => ?_)
    exact .ite keepsFlags_error (.ite (keepsFlags_pure h) (keepsFlags_pure h))
  | writeResume => exact .bind fun _ _ => .ite keepsFlags_error (keepsFlags_pure h)
  | _ => exact keepsFlags_pure h

theorem keepsFlags_efSyncStep (h : s.file.oflag = flags) (pc : ForegroundPc) :
    KeepsFlags flags id (s.efSyncStep pc) := by
  cases pc with
  | syncSuspend => exact .bind fun _ _ => keepsFlags_pure h
  | syncFlush => exact .bind fun a ha => keepsFlags_pure (keepsFlags_lowEfSync h a ha)
  | syncResume => exact .bind fun _ _ => .ite keepsFlags_error (keepsFlags_pure h)
  | _ => exact keepsFlags_pure h

theorem keepsFlags_efCloseStep (h : s.file.oflag = flags) (closeFails : Bool) (pc : ForegroundPc) :
    KeepsFlags flags id (s.efCloseStep closeFails pc) := by
  cases pc with
  | closeTest immediate =>
    refine .bind fun r _ => ?_
    cases r <;> exact keepsFlags_pure h
  | closeDrop immediate => exact .bind fun _ _ => keepsFlags_pure h
  | closeDispatch immediate => exact .ite (keepsFlags_pure h) (keepsFlags_pure h)
  | closing p => exact .bind fun a ha => keepsFlags_pure (keepsFlags_closeStep h closeFails p a ha)
  | _ => exact keepsFlags_pure h

theorem afterFree_oflag (k : AfterFree) : (s.afterFree k).file.oflag = s.file.oflag := by
  cases k <;> rfl

theorem keepsFlags_foregroundStep (h : s.file.oflag = flags) (closeFails : Bool) (v : View) :
    KeepsFlags flags id (s.foregroundStep E closeFails v) := by
  unfold foregroundStep
  split
  · exact keepsFlags_ok h
  · exact .bind fun a ha => keepsFlags_pure (keepsFlags_pushStep h _ a ha)
  · refine .bind fun a ha => ?_
    have hfree := keepsFlags_freeStep h _ a ha
    obtain ⟨s₁, next⟩ := a
    cases next with
    | some p => exact keepsFlags_pure hfree
    | none => exact keepsFlags_pure ((afterFree_oflag _).trans hfree)
  · exact .bind fun a ha => keepsFlags_pure (keepsFlags_allocStep h _ _ a ha)
  · exact .bind fun a ha => keepsFlags_pure (keepsFlags_setStep h _ a ha)
  · exact .bind fun a ha => keepsFlags_pure (keepsFlags_syncStep h _ a ha)
  iterate 5 exact keepsFlags_writeStep h _
  iterate 3 exact keepsFlags_efSyncStep h _
  iterate 4 exact keepsFlags_efCloseStep h closeFails _
  exact keepsFlags_readStep h v _

theorem keepsFlags_callStep (h : s.file.oflag = flags) (v : View) (c : Call) :
    KeepsFlags flags id (s.callStep E v c) := by
  cases c with
  | efWrite buf =>
    exact .ite (keepsFlags_pure h) (.bind fun _ _ => .ite (keepsFlags_pure h) (keepsFlags_pure h))
  | efSync =>
    refine .ite (keepsFlags_pure h) (.bind fun _ _ => .ite (keepsFlags_pure h) (.bind fun r _ => ?_))
    cases r with
    | none => exact keepsFlags_pure h
    | some r => exact .ite (keepsFlags_pure h) (.ite (keepsFlags_pure h) (keepsFlags_pure h))
  | efRead nbyte =>
    refine .bind fun r _ => ?_
    cases r <;> exact keepsFlags_pure h
  | efClose immediate =>
    refine .ite (keepsFlags_pure h) (.bind fun _ _ => .ite (keepsFlags_pure h) (.bind fun r _ => ?_))
    cases r with
    | none => exact keepsFlags_pure h
    | some r =>
      refine .ite (keepsFlags_pure h) (.ite (keepsFlags_pure h) ?_)
      exact .ite (keepsFlags_pure h) (keepsFlags_pure h)

/-! ### The run -/

theorem keepsFlags_threadStep (h : s.file.oflag = flags) {l : PipelineLabel} {r : Except Fault PipelineState}
    (hr : s.threadStep E l = some r) : KeepsFlags flags id r := by
  cases l <;> simp only [threadStep] at hr
  case call c v =>
    split at hr <;> cases hr
    exact keepsFlags_callStep h v c
  case foreground v closeFails =>
    split at hr <;> cases hr
    exact keepsFlags_foregroundStep h closeFails v
  case slowSync => exact keepsFlags_slowSyncStep h hr
  case fileWriter => exact keepsFlags_fileWriterStep h hr
  case writeJob i => exact keepsFlags_jobStep hr (keepsFlags_writeJobStep h) fun _ _ => rfl
  case readJob i => exact keepsFlags_jobStep hr (keepsFlags_readJobStep h) fun _ _ => rfl
  case closeJob i closeFails => exact keepsFlags_jobStep hr (keepsFlags_closeStep h closeFails) fun _ _ => rfl

/-- A step keeps the flags. -/
theorem oflag_step (h : s.file.oflag = flags) {l : PipelineLabel} (hstep : step E l s = some s') :
    s'.file.oflag = flags := by
  obtain ⟨-, hok | ⟨e, -, rfl⟩⟩ := step_eq_some hstep
  · exact keepsFlags_threadStep h hok s' rfl
  · exact h

/-- Every state of a run has the flags that `ef_file_open` stored. -/
theorem oflag_of_reach {Legal : PipelineState → PipelineLabel → Prop} {oflag : OFlag} {data : List UInt8}
    {collected : Bool} (hreach : Reach (step E) Legal (opened (efFileOpen E oflag data) collected) s) :
    s.file.oflag = openOflag oflag := by
  induction hreach with
  | init => exact (efFileOpen_frame oflag data).1
  | step _ _ hstep ih => exact oflag_step ih hstep

end Efio.Proofs.Evio
