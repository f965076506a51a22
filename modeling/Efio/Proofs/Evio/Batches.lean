import Efio.Spec.Payload
import Efio.Proofs.Evio.Sync

/-!
# `Efio.Proofs.Evio.Batches`: from one task to a whole run of `ef_file_write`

How the tasks are cut into batches does not matter
(`efFileWrites_eq_execTasks`): a run executes the tasks of all batches in
order. `execTasks_rule` is the induction over such a run. Its invariant
speaks about the tasks that are still to come, so it can compare what is
in the file and what is still to be written with a fixed goal.
-/

set_option autoImplicit false

namespace Efio.Proofs.Evio

open Efio.Evio
open Efio.Spec

variable {E : Env}

/-- The tasks `ws` executed one after the other. -/
def execTasks (E : Env) (f : EfFile) (ws : List WriteTask) : Except Fault EfFile :=
  ws.foldlM (fun f w => do return (← execTask E f w).1) f

/-- The sum of the transferred bytes has no influence on the file. -/
theorem efFileWrite_file (wList : List WriteTask) (f : EfFile) (n : Nat) :
    (do return (← wList.foldlM (fun (acc : EfFile × Nat) w => do
        let (f, n) ← execTask E acc.1 w
        return (f, acc.2 + n)) (f, n)).1) = execTasks E f wList := by
  induction wList generalizing f n with
  | nil => rfl
  | cons w ws ih =>
    rw [execTasks, List.foldlM_cons, List.foldlM_cons]
    cases hw : execTask E f w with
    | error e => rfl
    | ok r => exact ih r.1 (n + r.2)

theorem efFileWrites_eq_execTasks (f : EfFile) (batches : List (List WriteTask)) :
    efFileWrites E f batches = execTasks E f batches.flatten := by
  induction batches generalizing f with
  | nil => rfl
  | cons wList batches ih =>
    have hhead : (do return (← efFileWrite E f wList).1) = execTasks E f wList :=
      efFileWrite_file wList f 0
    rw [efFileWrites, List.foldlM_cons, hhead, List.flatten_cons]
    unfold execTasks
    rw [List.foldlM_append]
    cases hrun : wList.foldlM (fun f w => do return (← execTask E f w).1) f with
    | error e => rfl
    | ok g => exact ih g

/-- The induction over the tasks: an invariant about the file and the tasks
to come, kept by each task, holds at the end with none to come. -/
theorem execTasks_rule {I : List WriteTask → EfFile → Prop}
    (hstep : ∀ w ws f, I (w :: ws) f → ∃ f' n, execTask E f w = .ok (f', n) ∧ I ws f') :
    ∀ (ws : List WriteTask) (f : EfFile), I ws f → ∃ f', execTasks E f ws = .ok f' ∧ I [] f' := by
  intro ws
  induction ws with
  | nil => exact fun f h => ⟨f, rfl, h⟩
  | cons w ws ih =>
    intro f h
    obtain ⟨f₁, n, hexec, h₁⟩ := hstep w ws f h
    obtain ⟨f', hrun, h'⟩ := ih f₁ h₁
    refine ⟨f', ?_, h'⟩
    rw [execTasks, List.foldlM_cons, hexec]
    exact hrun

/-- A run that ends with an fsync: the invariant carries the file through
the tasks before it, and the fsync does the rest. -/
theorem efFileWrites_rule {I : List WriteTask → EfFile → Prop} {D : EfFile → Prop}
    (hstep : ∀ w ws f, I (w :: ws) f → ∃ f' n, execTask E f w = .ok (f', n) ∧ I ws f')
    (hfsync : ∀ w f, w.cmd = .fileFsyncEvt → I [w] f → ∃ f' n, execTask E f w = .ok (f', n) ∧ D f')
    {batches : List (List WriteTask)} (hend : EndsWithFsync batches) {f : EfFile}
    (h : I batches.flatten f) : ∃ f', efFileWrites E f batches = .ok f' ∧ D f' := by
  obtain ⟨ws, w, hflat, hcmd⟩ := hend
  rw [hflat] at h
  obtain ⟨f₁, hrun, h₁⟩ := execTasks_rule (I := fun ws f => I (ws ++ [w]) f)
    (fun w' ws' f hI => hstep w' (ws' ++ [w]) f hI) ws f h
  obtain ⟨f', n, hexec, hdone⟩ := hfsync w f₁ hcmd h₁
  refine ⟨f', ?_, hdone⟩
  rw [efFileWrites_eq_execTasks, hflat, execTasks, List.foldlM_append]
  rw [execTasks] at hrun
  rw [hrun]
  show (execTasks E f₁ [w]) = _
  rw [execTasks, List.foldlM_cons, hexec]
  rfl

/-! ### The two kinds of task -/

theorem execTask_write {w : WriteTask} (f : EfFile) (h : w.cmd = .fileWriteEvt) :
    execTask E f w = efOneSingleWrite E { f with fd := f.fd.clearErrno } w := by
  simp only [execTask, h]

theorem execTask_fsync {w : WriteTask} {f f' : EfFile} (h : w.cmd = .fileFsyncEvt)
    (hf : efFileFsync E { f with fd := f.fd.clearErrno } = .ok f') :
    execTask E f w = .ok (f', 0) := by
  simp only [execTask, h, hf]
  rfl

theorem payload_cons_write {w : WriteTask} (ws : List WriteTask) (h : w.cmd = .fileWriteEvt) :
    payload (w :: ws) = w.buf ++ payload ws := by
  simp [payload, taskPayload, h]

theorem payload_cons_fsync {w : WriteTask} (ws : List WriteTask) (h : w.cmd = .fileFsyncEvt) :
    payload (w :: ws) = payload ws := by
  simp [payload, taskPayload, h]

end Efio.Proofs.Evio
