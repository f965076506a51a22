import Efio.Proofs.Evio.CloseBarrier
import Efio.Proofs.Evio.WriteOrder

/-!
# `Efio.Proofs.Evio.Replay`: the file as the replay of its tasks

As long as nothing is read and no close has been dispatched, only
`ef_file_write` touches the file. So the file of such a run is what the
executed tasks make of the file at the start (`Replays`), and what is known
of `execTasks` holds of it. `WriteRun` puts this together with what is known
of the runs of `ef_write` and `ef_sync`.
-/

set_option autoImplicit false

namespace Efio.Proofs.Evio

open Efio.Lib
open Efio.Evio
open Efio.Evio.PipelineState
open Efio.Spec
open Efio.Proofs.Spec

variable {E : Env} {s s' : PipelineState} {f : EfFile}

/-- The file is what the executed tasks made of `f`. -/
def Replays (E : Env) (f : EfFile) (s : PipelineState) : Prop :=
  execTasks E f s.executed = .ok s.file

/-- No task is executed, and the file stays as it is. -/
structure KeepsFile (s s' : PipelineState) : Prop where
  file : s'.file = s.file
  executed : s'.executed = s.executed

theorem Replays.keep (h : Replays E f s) (hk : KeepsFile s s') : Replays E f s' := by
  unfold Replays
  rw [hk.executed, hk.file]
  exact h

theorem KeepsFile.refl (s : PipelineState) : KeepsFile s s := ⟨rfl, rfl⟩

/-! ### The pieces of code -/

theorem pushStep_keepsFile {p : PushPc} {next : Option PushPc}
    (hstep : s.pushStep p = .ok (s', next)) : KeepsFile s s' := by
  cases p with
  | post id =>
    cases hstep
    exact ⟨rfl, rfl⟩
  | _ =>
    obtain ⟨_, -, hok⟩ := bind_eq_ok.mp hstep
    cases hok
    exact ⟨rfl, rfl⟩

theorem lowEfSync_keepsFile {next : Option PushPc} (hstep : s.lowEfSync = .ok (s', next)) :
    KeepsFile s s' := by
  obtain ⟨r, -, hok⟩ := bind_eq_ok.mp hstep
  cases r with
  | none =>
    cases hok
    exact .refl s
  | some r =>
    simp only at hok
    split at hok
    · cases hok
      exact .refl s
    · split at hok
      · cases hok
      · split at hok <;> cases hok <;> exact ⟨rfl, rfl⟩

theorem setStep_keepsFile {p : SetPc} {next : Option SetPc} (hstep : s.setStep p = .ok (s', next)) :
    KeepsFile s s' := by
  cases p with
  | readTotreq =>
    obtain ⟨r, -, hok⟩ := bind_eq_ok.mp hstep
    cases r with
    | none =>
      cases hok
      exact .refl s
    | some r =>
      simp only at hok
      split at hok
      · cases hok
        exact .refl s
      · split at hok <;> cases hok
        exact .refl s
  | compare totreq =>
    obtain ⟨_, -, hok⟩ := bind_eq_ok.mp hstep
    cases hok
    exact .refl s
  | store =>
    obtain ⟨_, -, hok⟩ := bind_eq_ok.mp hstep
    cases hok
    exact ⟨rfl, rfl⟩

theorem syncStep_keepsFile {p : SyncPc} {next : Option SyncPc}
    (hstep : s.syncStep p = .ok (s', next)) : KeepsFile s s' :=
  have hother : syncHolds p = true → (none : Option PushPc) = none := fun _ => rfl
  syncStep_rule (R := fun s₁ _ => KeepsFile s s₁) hother hstep
    (fun _ _ _ _ => ⟨rfl, rfl⟩) (fun _ _ _ _ _ hp => pushStep_keepsFile hp)
    (fun _ _ _ _ hlow => lowEfSync_keepsFile hlow) fun _ _ _ _ _ => .refl s

/-! ### The threads -/

theorem callStep_keepsFile {v : View} {c : Call} (hstep : s.callStep E v c = .ok s') :
    KeepsFile s s' := by
  cases c with
  | efWrite buf => obtain rfl | ⟨-, rfl⟩ := callStep_efWrite hstep <;> exact ⟨rfl, rfl⟩
  | efSync =>
    obtain rfl | ⟨-, id, a, -, ⟨-, rfl⟩ | ⟨-, rfl⟩⟩ := callStep_efSync hstep <;> exact ⟨rfl, rfl⟩
  | efRead nbyte => obtain ⟨ret, err, -, rfl⟩ | ⟨-, rfl⟩ := callStep_efRead hstep <;> exact ⟨rfl, rfl⟩
  | efClose immediate =>
    obtain rfl | ⟨-, ⟨-, rfl⟩ | ⟨id, a, -, -, ⟨-, rfl⟩ | ⟨-, rfl⟩⟩⟩ := callStep_efClose hstep <;> exact ⟨rfl, rfl⟩

theorem writeStep_keepsFile {pc : ForegroundPc} (hstep : s.writeStep E pc = .ok s') :
    KeepsFile s s' := by
  unfold writeStep at hstep
  split at hstep
  · obtain ⟨_, -, hok⟩ := bind_eq_ok.mp hstep
    cases hok
    exact ⟨rfl, rfl⟩
  · obtain ⟨r, -, hok⟩ := bind_eq_ok.mp hstep
    cases r with
    | none =>
      cases hok
      exact ⟨rfl, rfl⟩
    | some r =>
      simp only at hok
      split at hok
      · cases hok
        exact ⟨rfl, rfl⟩
      · split at hok <;> cases hok <;> exact ⟨rfl, rfl⟩
  · obtain ⟨_, -, hok⟩ := bind_eq_ok.mp hstep
    cases hok
    exact ⟨rfl, rfl⟩
  · split at hstep
    · cases hstep
      exact ⟨rfl, rfl⟩
    · obtain ⟨_, -, hok⟩ := bind_eq_ok.mp hstep
      simp only at hok
      split at hok
      · cases hok
      · split at hok <;> cases hok <;> exact ⟨rfl, rfl⟩
  · obtain ⟨_, -, hok⟩ := bind_eq_ok.mp hstep
    simp only at hok
    split at hok <;> cases hok
    exact ⟨rfl, rfl⟩
  · cases hstep
    exact .refl s

theorem efSyncStep_keepsFile {pc : ForegroundPc} (hstep : s.efSyncStep pc = .ok s') :
    KeepsFile s s' := by
  unfold efSyncStep at hstep
  split at hstep
  · obtain ⟨_, -, hok⟩ := bind_eq_ok.mp hstep
    cases hok
    exact ⟨rfl, rfl⟩
  · obtain ⟨⟨s₁, p⟩, hsync, hok⟩ := bind_eq_ok.mp hstep
    cases hok
    have hkeep := lowEfSync_keepsFile hsync
    exact ⟨hkeep.file, hkeep.executed⟩
  · obtain ⟨_, -, hok⟩ := bind_eq_ok.mp hstep
    simp only at hok
    split at hok <;> cases hok
    exact ⟨rfl, rfl⟩
  · cases hstep
    exact .refl s

/-- The places from which the foreground thread does not touch the file. -/
def leavesFile : ForegroundPc → Bool
  | .readSnapshot _ | .readTest _ _ | .readDrop _ _ | .readBuffer _ _ | .readFire _ | .readEnqueue _
  | .closing _ => false
  | _ => true

theorem efCloseStep_keepsFile {closeFails : Bool} {pc : ForegroundPc} (hpc : leavesFile pc = true)
    (hstep : s.efCloseStep closeFails pc = .ok s') : KeepsFile s s' := by
  unfold efCloseStep at hstep
  split at hstep
  · obtain ⟨r, -, hok⟩ := bind_eq_ok.mp hstep
    cases r <;> cases hok <;> exact ⟨rfl, rfl⟩
  · obtain ⟨_, -, hok⟩ := bind_eq_ok.mp hstep
    cases hok
    exact ⟨rfl, rfl⟩
  · split at hstep <;> cases hstep <;> exact ⟨rfl, rfl⟩
  · cases hpc
  · cases hstep
    exact .refl s

theorem foregroundStep_keepsFile {v : View} {closeFails : Bool}
    (hpc : leavesFile s.foreground = true) (hstep : s.foregroundStep E closeFails v = .ok s') :
    KeepsFile s s' := by
  unfold foregroundStep at hstep
  cases hfg : s.foreground with
  | idle =>
    simp only [hfg] at hstep
    cases hstep
    exact .refl s
  | pushing p k =>
    simp only [hfg] at hstep
    obtain ⟨⟨s₁, next⟩, hp, hok⟩ := bind_eq_ok.mp hstep
    cases hok
    have hkeep := pushStep_keepsFile hp
    exact ⟨hkeep.file, hkeep.executed⟩
  | freeing p k =>
    simp only [hfg] at hstep
    obtain ⟨⟨s₁, next⟩, hp, hok⟩ := bind_eq_ok.mp hstep
    have hrest := freeStep_rest hp
    rw [hrest] at hok
    cases next <;> cases k <;> cases hok <;> exact ⟨rfl, rfl⟩
  | allocating p oper k =>
    simp only [hfg] at hstep
    obtain ⟨⟨s₁, next⟩, hp, hok⟩ := bind_eq_ok.mp hstep
    have hrest := allocStep_rest hp
    rw [hrest] at hok
    cases hok
    exact ⟨rfl, rfl⟩
  | setting p k =>
    simp only [hfg] at hstep
    obtain ⟨⟨s₁, next⟩, hp, hok⟩ := bind_eq_ok.mp hstep
    cases hok
    have hkeep := setStep_keepsFile hp
    exact ⟨hkeep.file, hkeep.executed⟩
  | syncing p k =>
    simp only [hfg] at hstep
    obtain ⟨⟨s₁, next⟩, hp, hok⟩ := bind_eq_ok.mp hstep
    cases hok
    have hkeep := syncStep_keepsFile hp
    exact ⟨hkeep.file, hkeep.executed⟩
  | writeSuspend buf =>
    simp only [hfg] at hstep
    exact writeStep_keepsFile hstep
  | writeTest buf =>
    simp only [hfg] at hstep
    exact writeStep_keepsFile hstep
  | writeEnsure buf =>
    simp only [hfg] at hstep
    exact writeStep_keepsFile hstep
  | writeLoop buf done =>
    simp only [hfg] at hstep
    exact writeStep_keepsFile hstep
  | writeResume =>
    simp only [hfg] at hstep
    exact writeStep_keepsFile hstep
  | syncSuspend =>
    simp only [hfg] at hstep
    exact efSyncStep_keepsFile hstep
  | syncFlush =>
    simp only [hfg] at hstep
    exact efSyncStep_keepsFile hstep
  | syncResume =>
    simp only [hfg] at hstep
    exact efSyncStep_keepsFile hstep
  | closeTest immediate =>
    simp only [hfg] at hstep
    exact efCloseStep_keepsFile rfl hstep
  | closeDrop immediate =>
    simp only [hfg] at hstep
    exact efCloseStep_keepsFile rfl hstep
  | closeDispatch immediate =>
    simp only [hfg] at hstep
    exact efCloseStep_keepsFile rfl hstep
  | _ =>
    rw [hfg] at hpc
    cases hpc

theorem slowSyncStep_keepsFile (hstep : s.slowSyncStep = some (.ok s')) : KeepsFile s s' := by
  obtain ⟨-, rfl⟩ | ⟨p, s₁, next, -, hsync, rfl⟩ := slowSyncStep_cases hstep
  · exact ⟨rfl, rfl⟩
  · have hkeep := syncStep_keepsFile hsync
    exact ⟨hkeep.file, hkeep.executed⟩

/-! ### The tasks -/

theorem execTasks_snoc {f₁ f₂ : EfFile} {ws : List WriteTask} {w : WriteTask} {n : Nat}
    (h : execTasks E f ws = .ok f₁) (hexec : execTask E f₁ w = .ok (f₂, n)) :
    execTasks E f (ws ++ [w]) = .ok f₂ := by
  rw [execTasks] at h
  rw [execTasks, List.foldlM_append, h]
  show execTasks E f₁ [w] = _
  rw [execTasks, List.foldlM_cons, hexec]
  rfl

/-- A task of `ef_file_write` goes on with the replay. -/
theorem Replays.writeJob {j : WriteJob} {next : Option WriteJob} (h : Replays E f s)
    (hstep : s.writeJobStep E j = .ok (s', next)) : Replays E f s' := by
  cases j with
  | queued =>
    obtain ⟨_, -, hok⟩ := bind_eq_ok.mp hstep
    cases hok
    exact h
  | items id rest bytes =>
    cases rest with
    | nil =>
      cases hstep
      exact h
    | cons w rest =>
      obtain ⟨_, -, hok⟩ := bind_eq_ok.mp hstep
      obtain ⟨⟨file, n⟩, hexec, hok⟩ := bind_eq_ok.mp hok
      cases hok
      exact execTasks_snoc h hexec
  | finish id bytes =>
    obtain ⟨_, -, hok⟩ := bind_eq_ok.mp hstep
    cases hok
    exact h
  | post id =>
    cases hstep
    exact h

/-- A step while nothing is read and no close has been dispatched. -/
theorem Replays.step (h : Replays E f s) (hpc : leavesFile s.foreground = true)
    (hreads : s.fileReads = []) (hcloses : s.fileCloses = []) {l : PipelineLabel}
    (hrun : s.threadStep E l = some (.ok s')) : Replays E f s' := by
  cases l with
  | call c v => exact h.keep (callStep_keepsFile (threadStep_call hrun).2)
  | foreground v closeFails => exact h.keep (foregroundStep_keepsFile hpc (threadStep_foreground hrun).2)
  | slowSync => exact h.keep (slowSyncStep_keepsFile hrun)
  | fileWriter =>
    have hrest := (fileWriterStep_frame hrun).1.rest
    exact h.keep ⟨by rw [hrest], (fileWriterStep_items hrun).2⟩
  | writeJob i =>
    simp only [threadStep] at hrun
    obtain ⟨j, s₁, next, -, hj, rfl⟩ := jobStep_eq_some hrun
    have hnew : Replays E f s₁ := h.writeJob hj
    exact hnew
  | readJob i => cases (threadStep_readJob_nil hreads i).symm.trans hrun
  | closeJob i closeFails => cases (threadStep_closeJob_nil hcloses i closeFails).symm.trans hrun

/-! ### Runs of `ef_write` and `ef_sync` -/

/-- What every run of `ef_write` and `ef_sync` keeps. -/
structure WriteRun (E : Env) (f : EfFile) (s : PipelineState) : Prop where
  draining : Draining s
  writing : Writing s
  replays : Replays E f s

theorem leavesFile_of_writePlace {pc : ForegroundPc} (h : writePlace pc = true) :
    leavesFile pc = true := by
  cases pc <;> first | rfl | cases h

theorem Draining.fault (h : Draining s) (e : Fault) : Draining { s with fault := some e } :=
  ⟨h.live, h.slot, h.status, h.closes,
    ⟨h.inv.flow, h.inv.fits, h.inv.locks, ⟨h.inv.own.setNull, h.inv.own.null, h.inv.own.typed⟩⟩,
    h.writable, h.clean, h.accounted, h.reads, h.place⟩

theorem WriteRun.draining_step (h : WriteRun E f s) {l : PipelineLabel} (hwriting : Writing s')
    (hinv : PipelineInv s') (hrun : s.threadStep E l = some (.ok s')) : Draining s' := by
  refine (h.draining.threadStep hinv hrun).resolve_right fun hbarred => ?_
  -- No close is accepted in these runs.
  obtain ⟨j, -, ⟨hcloses, -⟩ | ⟨-, hclosing⟩⟩ := hbarred.place
  · cases hcloses.symm.trans hwriting.closes
  · have hplace := hwriting.place
    rw [hclosing] at hplace
    cases hplace

theorem WriteRun.step (h : WriteRun E f s) {l : PipelineLabel} (hok : WritesAndSyncs s l)
    (hstep : PipelineState.step E l s = some s') : WriteRun E f s' := by
  have hinv : PipelineInv s' := h.draining.inv.step (h.writing.quietFree l) hstep
  have hwriting : Writing s' := h.writing.step h.draining.inv hok hstep
  obtain ⟨-, hrun | ⟨e, -, rfl⟩⟩ := step_eq_some hstep
  · exact ⟨h.draining_step hwriting hinv hrun, hwriting,
      h.replays.step (leavesFile_of_writePlace h.writing.place) h.writing.reads h.writing.closes hrun⟩
  · exact ⟨h.draining.fault e, hwriting, h.replays⟩

theorem writeRun_opened {oflag : OFlag} (hwritable : oflag.has (O_RDWR ||| O_WRONLY))
    (init : List UInt8) (collected : Bool) :
    WriteRun E (efFileOpen E oflag init) (opened (efFileOpen E oflag init) collected) := by
  refine ⟨?_, (writing_of_reach (E := E) .init).2, rfl⟩
  obtain h | h | h := barrier_opened hwritable init collected
  · exact h
  · obtain ⟨j, -, ⟨hcloses, -⟩ | ⟨-, hclosing⟩⟩ := h.place
    · cases hcloses
    · cases hclosing
  · exact absurd rfl h.status

end Efio.Proofs.Evio
