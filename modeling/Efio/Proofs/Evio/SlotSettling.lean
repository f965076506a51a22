import Efio.Lib.Counted
import Efio.Lib.Progress
import Efio.Proofs.Evio.SlotRuns

/-!
# `Efio.Proofs.Evio.SlotSettling`: every call on the table comes back

Each place of a thread, of a task and of `slow_sync` has a weight, which
contains the weight of the task that is still to be enqueued. Every step
lowers the sum, but for a thread that looks at a lock or at its action
again (`Waiting`). Who has a lock does not wait, so where nothing moves any
more nobody has a lock, and nobody waits.

* `foregroundStep_work`, `taskStep_work`, `slowSyncStep_work`: the weights;
* `fileTable_settles`: after a bounded number of steps all calls have
  returned and all tasks are done.
-/

set_option autoImplicit false

namespace Efio.Proofs.Evio.Table

open Efio.Lib
open Efio.Evio
open Efio.Evio.FileTable

variable {n : Nat} {T : Type} {fd : Fin n} {s s₁ s' : FileTable n T} {job : Fin n → Option Nat}
  {p k : Nat} {r : FileRecord n} {t : T} {pc : TablePc n}

/-! ### What is left to do -/

@[simp] def dropWork : DropPc → Nat
  | .cleanup => 2
  | .setNull => 1

@[simp] def cleanupWork : CleanupPc → Nat
  | .lockHandle => 10
  | .testAction => 9
  | .freeAction d => 6 + dropWork d
  | .freeBuffer => 6
  | .freeRecord => 5
  | .clearSlot => 4
  | .unlockHandle => 3
  | .enqueue => 2

@[simp] def slotSyncWork : SlotSyncPc → Nat
  | .lockHandle => 5
  | .checkFile => 4
  | .checkStatus _ => 3
  | .checkOflag _ => 2
  | .unlockHandle => 1

@[simp] def openTaskWork : OpenTask → Nat
  | .start => 6
  | .sysOpen => 5
  | .publish => 4
  | .complete => 3
  | .setStatus => 2
  | .notify => 1

@[simp] def readTaskWork : ReadTask → Nat
  | .start => 5
  | .load => 4
  | .publish _ _ => 3
  | .complete _ => 2
  | .notify _ => 1

@[simp] def closeTaskWork : CloseTask n → Nat
  | .start => 20
  | .freeBuffer => 19
  | .sysClose => 18
  | .publish _ => 17
  | .setStatus => 16
  | .complete => 15
  | .notify => 14
  | .readFd => 13
  | .statusSlot _ => 12
  | .statusAction _ => 11
  | .freeAction _ d => dropWork d
  | .cleanup _ c => cleanupWork c

@[simp] def taskWork : DiskTask n → Nat
  | .efFileOpen _ pc => openTaskWork pc
  | .efFileRead _ pc => readTaskWork pc
  | .efFileClose _ pc => closeTaskWork pc

@[simp] def cellWork : Cell (DiskTask n) → Nat
  | .live task => taskWork task
  | .unallocated | .raw => 0

/-- What a thread has still to do, with the task it is going to enqueue. -/
@[simp] def tablePcWork : TablePc n → Nat
  | .idle => 0
  | .openLock _ _ => 13
  | .openPublish _ _ => 12
  | .openUnlock _ _ _ => 11
  | .openInit _ _ _ => 10
  | .openAction _ _ _ => 9
  | .openAttempt _ _ => 8
  | .openEnqueue _ _ => 7
  | .statusTest _ => 11
  | .statusFree _ d => dropWork d
  | .statusCleanup _ _ c => cleanupWork c
  | .readDispatch _ => 14
  | .readFree _ d (.done _ _) => dropWork d
  | .readFree _ d .drop => 11 + dropWork d
  | .readFree _ d .buffer => 8 + dropWork d
  | .readDrop _ => 11
  | .readBuffer _ => 8
  | .readFire _ => 7
  | .readEnqueue _ => 6
  | .closeFree _ _ false d => 32 + dropWork d
  | .syncing _ _ p => 27 + slotSyncWork p
  | .closeTest _ _ => 27
  | .closeDrop _ _ => 26
  | .closeFree _ _ true d => 23 + dropWork d
  | .closeAlloc _ _ => 23
  | .closeDispatch _ _ => 22
  | .closing _ _ pc => closeTaskWork pc

/-- What `slow_sync` has still to do in its round. -/
@[simp] def scanWork : ScanPc n → Nat
  | .asleep => 0
  | .test i => 6 * (n - i) + 1
  | .syncing i p => 6 * (n - (i + 1)) + 1 + slotSyncWork p

/-- The work of all. A fault leaves nothing to do. -/
def tableWork [Fintype T] (s : FileTable n T) : Nat :=
  ∑ t, tablePcWork (s.foreground t) + s.tasks.total cellWork + scanWork s.slowSync +
    if s.fault.isSome then 0 else 1

/-! ### Shared pieces of code -/

/-- No thread, no task and not `slow_sync` has moved. -/
structure Aside (s s' : FileTable n T) : Prop where
  foreground : s'.foreground = s.foreground
  tasks : s'.tasks = s.tasks
  slowSync : s'.slowSync = s.slowSync
  fault : s'.fault = s.fault

theorem Aside.refl (s : FileTable n T) : Aside s s := ⟨rfl, rfl, rfl, rfl⟩

theorem dropStep_work {d : DropPc} {next : Option DropPc} (hstep : s.dropStep p r d = .ok (s', next)) :
    Aside s s' ∧ next.elim 0 dropWork < dropWork d := by
  cases d with
  | cleanup =>
    obtain ⟨-, -, hok⟩ := bind_eq_ok.mp hstep
    cases hok
    exact ⟨⟨rfl, rfl, rfl, rfl⟩, by decide⟩
  | setNull =>
    cases hstep
    exact ⟨⟨rfl, rfl, rfl, rfl⟩, by decide⟩

/-- The lock is taken, or the thread looks at it again. -/
theorem lockHandle_work (s : FileTable n T) (fd : Fin n) :
    (∃ s', s.lockHandle fd = (s', true) ∧ Aside s s') ∨
      s.lockHandle fd = (s, false) ∧ s.handleToFileAction fd ≠ 0 := by
  by_cases hfree : s.handleToFileAction fd = 0
  · exact Or.inl ⟨_, lockHandle_free hfree, rfl, rfl, rfl, rfl⟩
  · refine Or.inr ⟨?_, hfree⟩
    simp only [lockHandle, cas_of_ne hfree, Function.update_eq_self]

theorem cleanupStep_work {c : CleanupPc} {next : Option CleanupPc}
    (hstep : s.cleanupStep fd c = .ok (s', next)) :
    Aside s s' ∧ (next.elim 0 cleanupWork < cleanupWork c ∨
      s' = s ∧ next = some c ∧ c = .lockHandle ∧ s.handleToFileAction fd ≠ 0) := by
  cases c with
  | lockHandle =>
    obtain ⟨s₁, hlock, haside⟩ | ⟨hlock, htaken⟩ := lockHandle_work s fd
    · simp only [cleanupStep, hlock] at hstep
      cases hstep
      exact ⟨haside, Or.inl (by decide)⟩
    · simp only [cleanupStep, hlock] at hstep
      cases hstep
      exact ⟨.refl s, Or.inr ⟨rfl, rfl, rfl, htaken⟩⟩
  | testAction =>
    obtain ⟨⟨p, r⟩, -, hok⟩ := bind_eq_ok.mp hstep
    cases hok
    refine ⟨.refl s, Or.inl ?_⟩
    split <;> decide
  | freeAction d =>
    obtain ⟨⟨p, r⟩, -, hok⟩ := bind_eq_ok.mp hstep
    obtain ⟨⟨s₁, d'⟩, hdrop, hok⟩ := bind_eq_ok.mp hok
    cases hok
    obtain ⟨haside, hlt⟩ := dropStep_work hdrop
    refine ⟨haside, Or.inl ?_⟩
    cases d' with
    | none =>
      show 6 < 6 + dropWork d
      exact Nat.lt_add_of_pos_right (Nat.lt_of_le_of_lt (Nat.zero_le _) hlt)
    | some d' => exact Nat.add_lt_add_left hlt 6
  | freeBuffer | freeRecord =>
    obtain ⟨⟨p, r⟩, -, hok⟩ := bind_eq_ok.mp hstep
    cases hok
    exact ⟨⟨rfl, rfl, rfl, rfl⟩, Or.inl (by decide)⟩
  | clearSlot | unlockHandle | enqueue =>
    cases hstep
    exact ⟨⟨rfl, rfl, rfl, rfl⟩, Or.inl (by decide)⟩

theorem slotSyncStep_work {sp : SlotSyncPc} {next : Option SlotSyncPc}
    (hstep : s.slotSyncStep fd sp = .ok (s', next)) :
    Aside s s' ∧ (next.elim 0 slotSyncWork < slotSyncWork sp ∨
      s' = s ∧ next = some sp ∧ sp = .lockHandle ∧ s.handleToFileAction fd ≠ 0) := by
  cases sp with
  | lockHandle =>
    obtain ⟨s₁, hlock, haside⟩ | ⟨hlock, htaken⟩ := lockHandle_work s fd
    · simp only [slotSyncStep, hlock] at hstep
      cases hstep
      exact ⟨haside, Or.inl (by decide)⟩
    · simp only [slotSyncStep, hlock] at hstep
      cases hstep
      exact ⟨.refl s, Or.inr ⟨rfl, rfl, rfl, htaken⟩⟩
  | checkFile =>
    cases hstep
    refine ⟨.refl s, Or.inl ?_⟩
    cases s.openFiles fd <;> simp [slotSyncWork]
  | checkStatus p =>
    obtain ⟨r, -, hok⟩ := bind_eq_ok.mp hstep
    cases hok
    refine ⟨.refl s, Or.inl ?_⟩
    split <;> simp [slotSyncWork]
  | checkOflag p =>
    obtain ⟨r, -, hok⟩ := bind_eq_ok.mp hstep
    cases hok
    exact ⟨.refl s, Or.inl (by simp [slotSyncWork])⟩
  | unlockHandle =>
    cases hstep
    exact ⟨⟨rfl, rfl, rfl, rfl⟩, Or.inl (by decide)⟩

theorem openStep_work {opens : Bool} {ot : OpenTask} {next : Option OpenTask}
    (hstep : s.openStep opens p ot = .ok (s', next)) :
    Aside s s' ∧ next.elim 0 openTaskWork < openTaskWork ot := by
  cases ot with
  | start =>
    obtain ⟨r, -, hok⟩ := bind_eq_ok.mp hstep
    obtain ⟨o, -, hok⟩ := bind_eq_ok.mp hok
    cases o <;> cases hok <;> exact ⟨⟨rfl, rfl, rfl, rfl⟩, by decide⟩
  | sysOpen =>
    obtain ⟨r, -, hok⟩ := bind_eq_ok.mp hstep
    obtain ⟨_, -, hok⟩ := bind_eq_ok.mp hok
    cases opens <;> cases hok <;> exact ⟨⟨rfl, rfl, rfl, rfl⟩, by decide⟩
  | publish | complete =>
    obtain ⟨r, -, hok⟩ := bind_eq_ok.mp hstep
    obtain ⟨⟨id, a⟩, -, hok⟩ := bind_eq_ok.mp hok
    cases hok
    exact ⟨⟨rfl, rfl, rfl, rfl⟩, by decide⟩
  | setStatus =>
    obtain ⟨r, -, hok⟩ := bind_eq_ok.mp hstep
    cases hok
    exact ⟨⟨rfl, rfl, rfl, rfl⟩, by decide⟩
  | notify =>
    obtain ⟨-, -, hok⟩ := bind_eq_ok.mp hstep
    cases hok
    exact ⟨.refl s, by decide⟩

theorem readStep_work {bytes : Option Nat} {rt : ReadTask} {next : Option ReadTask}
    (hstep : s.readStep bytes p rt = .ok (s', next)) :
    Aside s s' ∧ next.elim 0 readTaskWork < readTaskWork rt := by
  cases rt with
  | start | publish ret wasEmpty | complete wasEmpty =>
    obtain ⟨r, -, hok⟩ := bind_eq_ok.mp hstep
    obtain ⟨⟨id, a⟩, -, hok⟩ := bind_eq_ok.mp hok
    cases hok
    exact ⟨⟨rfl, rfl, rfl, rfl⟩, by simp [readTaskWork]⟩
  | load =>
    obtain ⟨r, -, hok⟩ := bind_eq_ok.mp hstep
    obtain ⟨k, -, hok⟩ := bind_eq_ok.mp hok
    cases hok
    exact ⟨⟨rfl, rfl, rfl, rfl⟩, by simp [readTaskWork]⟩
  | notify wasEmpty =>
    cases wasEmpty with
    | false =>
      cases hstep
      exact ⟨.refl s, by decide⟩
    | true =>
      have hnotify : (do s.notify p; return (s, none)) = Except.ok (s', next) := hstep
      obtain ⟨-, -, hok⟩ := bind_eq_ok.mp hnotify
      cases hok
      exact ⟨.refl s, by decide⟩

theorem closeStep_work {closes : Bool} {ct : CloseTask n} {next : Option (CloseTask n)}
    (hstep : s.closeStep closes p ct = .ok (s', next)) :
    Aside s s' ∧ (next.elim 0 closeTaskWork < closeTaskWork ct ∨
      s' = s ∧ next = some ct ∧ ∃ fd, ct = .cleanup fd .lockHandle ∧ s.handleToFileAction fd ≠ 0) := by
  cases ct with
  | start =>
    obtain ⟨r, -, hok⟩ := bind_eq_ok.mp hstep
    obtain ⟨o, -, hok⟩ := bind_eq_ok.mp hok
    cases o <;> cases hok <;> exact ⟨⟨rfl, rfl, rfl, rfl⟩, Or.inl (by simp [closeTaskWork])⟩
  | freeBuffer | setStatus =>
    obtain ⟨r, -, hok⟩ := bind_eq_ok.mp hstep
    cases hok
    exact ⟨⟨rfl, rfl, rfl, rfl⟩, Or.inl (by simp [closeTaskWork])⟩
  | sysClose =>
    obtain ⟨r, -, hok⟩ := bind_eq_ok.mp hstep
    obtain ⟨k, -, hok⟩ := bind_eq_ok.mp hok
    cases hok
    exact ⟨⟨rfl, rfl, rfl, rfl⟩, Or.inl (by simp [closeTaskWork])⟩
  | publish ret | complete =>
    obtain ⟨r, -, hok⟩ := bind_eq_ok.mp hstep
    obtain ⟨⟨id, a⟩, -, hok⟩ := bind_eq_ok.mp hok
    cases hok
    exact ⟨⟨rfl, rfl, rfl, rfl⟩, Or.inl (by simp [closeTaskWork])⟩
  | notify =>
    obtain ⟨-, -, hok⟩ := bind_eq_ok.mp hstep
    cases hok
    exact ⟨.refl s, Or.inl (by simp [closeTaskWork])⟩
  | readFd =>
    obtain ⟨r, -, hok⟩ := bind_eq_ok.mp hstep
    split at hok <;> cases hok
    exact ⟨.refl s, Or.inl (by simp [closeTaskWork])⟩
  | statusSlot fd =>
    cases hstep
    refine ⟨.refl s, Or.inl ?_⟩
    split <;> simp [closeTaskWork]
  | statusAction fd =>
    obtain ⟨⟨q, r⟩, -, hok⟩ := bind_eq_ok.mp hstep
    obtain ⟨o, -, hok⟩ := bind_eq_ok.mp hok
    cases o with
    | none =>
      cases hok
      exact ⟨.refl s, Or.inl (by simp [closeTaskWork])⟩
    | some ida =>
      simp only at hok
      split at hok
      · cases hok
        exact ⟨.refl s, Or.inl (by simp [closeTaskWork])⟩
      · split at hok <;> cases hok <;>
          exact ⟨.refl s, Or.inl (by simp [closeTaskWork, dropWork, cleanupWork])⟩
  | freeAction fd d =>
    obtain ⟨⟨q, r⟩, -, hok⟩ := bind_eq_ok.mp hstep
    obtain ⟨⟨s₁, d'⟩, hdrop, hok⟩ := bind_eq_ok.mp hok
    obtain ⟨haside, hlt⟩ := dropStep_work hdrop
    cases d' with
    | none =>
      cases hok
      exact ⟨⟨haside.foreground, haside.tasks, haside.slowSync, haside.fault⟩, Or.inl hlt⟩
    | some d' =>
      cases hok
      exact ⟨haside, Or.inl hlt⟩
  | cleanup fd c =>
    obtain ⟨⟨s₁, c'⟩, hclean, hok⟩ := bind_eq_ok.mp hstep
    cases hok
    obtain ⟨haside, hlt | ⟨rfl, rfl, rfl, htaken⟩⟩ := cleanupStep_work hclean
    · refine ⟨haside, Or.inl ?_⟩
      cases c' <;> exact hlt
    · exact ⟨haside, Or.inr ⟨rfl, rfl, fd, rfl, htaken⟩⟩

/-! ### Threads -/

section Threads

variable [DecidableEq T]

/-- The thread stays where it is, and has changed nothing. -/
theorem goto_self (hpc : s.foreground t = pc) : s.goto t pc = s := by
  unfold goto
  rw [← hpc, Function.update_eq_self]

/-- The places where a thread may have to wait: for the lock of its slot, or
for its action. -/
def Waiting (s : FileTable n T) : TablePc n → Prop
  | .openLock fd _ | .statusCleanup fd _ .lockHandle | .syncing fd _ .lockHandle
  | .closing _ _ (.cleanup fd .lockHandle) => s.handleToFileAction fd ≠ 0
  | .closeTest fd _ =>
    ∃ p r ida, s.derefSlot fd = .ok (p, r) ∧ testAction r = .ok (some ida)
  | _ => False

/-- The thread is at `pc` now, and the work of the tasks has grown by `k`. -/
structure Advance (s s' : FileTable n T) (t : T) (pc : TablePc n) (k : Nat) : Prop where
  foreground : s'.foreground = Function.update s.foreground t pc
  tasks : s'.tasks.total cellWork = s.tasks.total cellWork + k
  slowSync : s'.slowSync = s.slowSync
  fault : s'.fault = s.fault

theorem Advance.work_lt [Fintype T] {q : TablePc n} (h : Advance s s' t q k)
    (hlt : tablePcWork q + k < tablePcWork (s.foreground t)) : tableWork s' < tableWork s := by
  have hsum := sum_update tablePcWork s.foreground t q
  unfold tableWork
  rw [h.foreground, h.tasks, h.slowSync, h.fault]
  omega

theorem Aside.goto (h : Aside s s₁) (q : TablePc n) : Advance s (s₁.goto t q) t q 0 where
  foreground := by
    show Function.update s₁.foreground t q = _
    rw [h.foreground]
  tasks := congrArg (fun o => o.total cellWork) h.tasks
  slowSync := h.slowSync
  fault := h.fault

theorem Aside.finish (h : Aside s s₁) (ret : Int) (err : Option Errno) :
    Advance s (s₁.finish t ret err) t .idle 0 :=
  ⟨(h.goto .idle).foreground, (h.goto (t := t) .idle).tasks, h.slowSync, h.fault⟩

/-- The thread enqueues a task and returns. -/
theorem Advance.enqueue (s : FileTable n T) (task : DiskTask n) (ret : Int) (err : Option Errno) :
    Advance s ((s.enqueueTask task).finish t ret err) t .idle (taskWork task) :=
  ⟨rfl, Objects.total_malloc cellWork (.live task), rfl, rfl⟩

/-- The thread has less to do, or it waits. -/
def Advances (s s' : FileTable n T) (t : T) : Prop :=
  (∃ q k, Advance s s' t q k ∧ tablePcWork q + k < tablePcWork (s.foreground t)) ∨
    s' = s ∧ Waiting s (s.foreground t)

theorem Advances.goto {q : TablePc n} (hpc : s.foreground t = pc) (hlt : tablePcWork q < tablePcWork pc)
    (h : Aside s s₁) : Advances s (s₁.goto t q) t :=
  Or.inl ⟨q, 0, h.goto q, by rwa [hpc]⟩

theorem Advances.finish {ret : Int} {err : Option Errno} (hpc : s.foreground t = pc)
    (hlt : 0 < tablePcWork pc) (h : Aside s s₁) : Advances s (s₁.finish t ret err) t :=
  Or.inl ⟨.idle, 0, h.finish ret err, by rwa [hpc]⟩

/-- The places of `ef_open`. -/
def inEfOpen : TablePc n → Bool
  | .openLock _ _ | .openPublish _ _ | .openUnlock _ _ _ | .openInit _ _ _ | .openAction _ _ _
  | .openAttempt _ _ | .openEnqueue _ _ => true
  | _ => false

theorem efOpenStep_work (hpc : s.foreground t = pc) (hin : inEfOpen pc = true)
    (hstep : s.efOpenStep t pc = .ok s') : Advances s s' t := by
  cases pc with
  | openLock fd oflag =>
    obtain ⟨s₁, hlock, haside⟩ | ⟨hlock, htaken⟩ := lockHandle_work s fd
    · simp only [efOpenStep, hlock] at hstep
      cases hstep
      exact .goto hpc (by simp) haside
    · simp only [efOpenStep, hlock] at hstep
      cases hstep
      exact Or.inr ⟨goto_self hpc, by rw [hpc]; exact htaken⟩
  | openPublish fd oflag | openUnlock fd p oflag =>
    cases hstep
    refine .goto hpc (by simp) ?_
    exact ⟨rfl, rfl, rfl, rfl⟩
  | openInit fd p oflag =>
    simp only [efOpenStep] at hstep
    split at hstep
    · cases hstep
    all_goals
      cases hstep
      refine .goto hpc (by simp) ?_
      exact ⟨rfl, rfl, rfl, rfl⟩
  | openAction fd p oflag | openAttempt fd p =>
    obtain ⟨r, -, hok⟩ := bind_eq_ok.mp hstep
    cases hok
    refine .goto hpc (by simp) ?_
    exact ⟨rfl, rfl, rfl, rfl⟩
  | openEnqueue fd p =>
    cases hstep
    exact Or.inl ⟨.idle, _, .enqueue s _ _ _, by simp [hpc]⟩
  | _ => cases hin

/-- The places of `ef_open_status`. -/
def inEfOpenStatus : TablePc n → Bool
  | .statusTest _ | .statusFree _ _ | .statusCleanup _ _ _ => true
  | _ => false

theorem efOpenStatusStep_work (hpc : s.foreground t = pc) (hin : inEfOpenStatus pc = true)
    (hstep : s.efOpenStatusStep t pc = .ok s') : Advances s s' t := by
  cases pc with
  | statusTest fd =>
    obtain ⟨⟨p, r⟩, -, hok⟩ := bind_eq_ok.mp hstep
    obtain ⟨o, -, hok⟩ := bind_eq_ok.mp hok
    cases o with
    | none =>
      simp only at hok
      split at hok <;> cases hok <;> exact .finish hpc (by simp) (.refl s)
    | some ida =>
      simp only at hok
      split at hok
      · split at hok
        · cases hok
          exact .finish hpc (by simp) (.refl s)
        · split at hok
          · cases hok
            exact .goto hpc (by simp) (.refl s)
          · split at hok <;> cases hok
            · exact .finish hpc (by simp) (.refl s)
            · exact .goto hpc (by simp) (.refl s)
      · split at hok <;> cases hok <;> exact .finish hpc (by simp) (.refl s)
  | statusFree fd d =>
    obtain ⟨⟨p, r⟩, -, hok⟩ := bind_eq_ok.mp hstep
    obtain ⟨⟨s₁, d'⟩, hdrop, hok⟩ := bind_eq_ok.mp hok
    obtain ⟨haside, hlt⟩ := dropStep_work hdrop
    cases d' with
    | none =>
      cases hok
      exact .finish hpc hlt haside
    | some d' =>
      cases hok
      exact .goto hpc hlt haside
  | statusCleanup fd err c =>
    obtain ⟨⟨s₁, c'⟩, hclean, hok⟩ := bind_eq_ok.mp hstep
    obtain ⟨haside, hlt | ⟨rfl, rfl, rfl, htaken⟩⟩ := cleanupStep_work hclean
    · cases c' with
      | none =>
        cases hok
        exact .finish hpc hlt haside
      | some c' =>
        cases hok
        exact .goto hpc hlt haside
    · cases hok
      exact Or.inr ⟨goto_self hpc, by rw [hpc]; exact htaken⟩
  | _ => cases hin

/-- The places of `low_ef_read`. -/
def inEfRead : TablePc n → Bool
  | .readDispatch _ | .readFree _ _ _ | .readDrop _ | .readBuffer _ | .readFire _ | .readEnqueue _ => true
  | _ => false

theorem efReadStep_work {pageUsed : Bool} {bytes : Nat} (hpc : s.foreground t = pc)
    (hin : inEfRead pc = true) (hstep : s.efReadStep pageUsed bytes t pc = .ok s') : Advances s s' t := by
  cases pc with
  | readDispatch fd =>
    obtain ⟨⟨p, r⟩, -, hok⟩ := bind_eq_ok.mp hstep
    obtain ⟨o, -, hok⟩ := bind_eq_ok.mp hok
    cases o with
    | none =>
      cases hok
      exact .goto hpc (by simp) (.refl s)
    | some ida =>
      simp only at hok
      split at hok
      · split at hok
        · cases hok
          exact .finish hpc (by simp) (.refl s)
        · split at hok
          · cases hok
            exact .goto hpc (by simp) (.refl s)
          · split at hok <;> cases hok <;> exact .goto hpc (by simp) (.refl s)
      · split at hok <;> cases hok
        · exact .finish hpc (by simp) (.refl s)
        · exact .goto hpc (by simp) (.refl s)
  | readFree fd d k =>
    obtain ⟨⟨p, r⟩, -, hok⟩ := bind_eq_ok.mp hstep
    obtain ⟨⟨s₁, d'⟩, hdrop, hok⟩ := bind_eq_ok.mp hok
    obtain ⟨haside, hlt⟩ := dropStep_work hdrop
    cases d' with
    | some d' =>
      cases hok
      refine .goto hpc ?_ haside
      cases k <;> simpa using hlt
    | none =>
      cases k with
      | done ret err =>
        cases hok
        exact .finish hpc hlt haside
      | drop | buffer =>
        cases hok
        refine .goto hpc ?_ haside
        simpa using hlt
  | readDrop fd =>
    obtain ⟨⟨p, r⟩, -, hok⟩ := bind_eq_ok.mp hstep
    obtain ⟨o, -, hok⟩ := bind_eq_ok.mp hok
    cases o with
    | none =>
      cases hok
      exact .goto hpc (by simp) (.refl s)
    | some ida =>
      cases hok
      refine .goto hpc ?_ (.refl s)
      split <;> simp
  | readBuffer fd =>
    obtain ⟨⟨p, r⟩, -, hok⟩ := bind_eq_ok.mp hstep
    simp only at hok
    split at hok
    · cases hok
      refine .finish hpc (by simp) ?_
      exact ⟨rfl, rfl, rfl, rfl⟩
    · obtain ⟨o, -, hok⟩ := bind_eq_ok.mp hok
      cases o with
      | none =>
        cases hok
        exact .goto hpc (by simp) (.refl s)
      | some ida =>
        cases hok
        exact .finish hpc (by simp) (.refl s)
  | readFire fd =>
    obtain ⟨⟨p, r⟩, -, hok⟩ := bind_eq_ok.mp hstep
    simp only at hok
    split at hok <;> cases hok
    refine .goto hpc (by simp) ?_
    exact ⟨rfl, rfl, rfl, rfl⟩
  | readEnqueue fd =>
    obtain ⟨⟨p, r⟩, -, hok⟩ := bind_eq_ok.mp hstep
    cases hok
    exact Or.inl ⟨.idle, _, .enqueue s _ _ _, by simp [hpc]⟩
  | _ => cases hin

/-- The places of `ef_close_api`. -/
def inEfClose : TablePc n → Bool
  | .closeFree _ _ _ _ | .syncing _ _ _ | .closeTest _ _ | .closeDrop _ _ | .closeAlloc _ _
  | .closeDispatch _ _ | .closing _ _ _ => true
  | _ => false

theorem efCloseStep_work {closes : Bool} (hpc : s.foreground t = pc) (hin : inEfClose pc = true)
    (hstep : s.efCloseStep closes t pc = .ok s') : Advances s s' t := by
  cases pc with
  | closeFree fd immediate synced d =>
    obtain ⟨⟨p, r⟩, -, hok⟩ := bind_eq_ok.mp hstep
    obtain ⟨⟨s₁, d'⟩, hdrop, hok⟩ := bind_eq_ok.mp hok
    obtain ⟨haside, hlt⟩ := dropStep_work hdrop
    cases d' with
    | some d' =>
      cases hok
      refine .goto hpc ?_ haside
      cases synced <;> simpa using hlt
    | none =>
      cases hok
      refine .goto hpc ?_ haside
      cases synced <;> simpa using hlt
  | syncing fd immediate sp =>
    obtain ⟨⟨s₁, sp'⟩, hsync, hok⟩ := bind_eq_ok.mp hstep
    obtain ⟨haside, hlt | ⟨rfl, rfl, rfl, htaken⟩⟩ := slotSyncStep_work hsync
    · cases hok
      refine .goto hpc ?_ haside
      cases sp' <;> simpa using hlt
    · cases hok
      exact Or.inr ⟨goto_self hpc, by rw [hpc]; exact htaken⟩
  | closeTest fd immediate =>
    obtain ⟨⟨p, r⟩, hderef, hok⟩ := bind_eq_ok.mp hstep
    obtain ⟨o, htest, hok⟩ := bind_eq_ok.mp hok
    cases o with
    | none =>
      cases hok
      exact .goto hpc (by simp) (.refl s)
    | some ida =>
      cases hok
      split
      · exact Or.inr ⟨goto_self hpc, by rw [hpc]; exact ⟨p, r, ida, hderef, htest⟩⟩
      · exact .goto hpc (by simp) (.refl s)
  | closeDrop fd immediate =>
    obtain ⟨⟨p, r⟩, -, hok⟩ := bind_eq_ok.mp hstep
    cases hok
    refine .goto hpc ?_ (.refl s)
    split <;> simp
  | closeAlloc fd immediate =>
    obtain ⟨⟨p, r⟩, -, hok⟩ := bind_eq_ok.mp hstep
    cases hok
    refine .goto hpc (by simp) ?_
    exact ⟨rfl, rfl, rfl, rfl⟩
  | closeDispatch fd immediate =>
    obtain ⟨⟨p, r⟩, -, hok⟩ := bind_eq_ok.mp hstep
    cases immediate with
    | true =>
      cases hok
      exact .goto hpc (by simp) (.refl s)
    | false =>
      cases hok
      exact Or.inl ⟨.idle, _, ⟨rfl, Objects.total_malloc cellWork _, rfl, rfl⟩, by simp [hpc]⟩
  | closing fd p ct =>
    obtain ⟨⟨s₁, ct'⟩, hclose, hok⟩ := bind_eq_ok.mp hstep
    obtain ⟨haside, hlt | ⟨rfl, rfl, fd', rfl, htaken⟩⟩ := closeStep_work hclose
    · cases ct' with
      | none =>
        cases hok
        exact .finish hpc hlt haside
      | some ct' =>
        cases hok
        exact .goto hpc hlt haside
    · cases hok
      exact Or.inr ⟨goto_self hpc, by rw [hpc]; exact htaken⟩
  | _ => cases hin

/-- A thread inside a call has less to do after its step, or it waits. -/
theorem foregroundStep_work {yes : Bool} {bytes : Nat} (hbusy : s.foreground t ≠ .idle)
    (hstep : s.foregroundStep yes bytes t = .ok s') : Advances s s' t := by
  unfold foregroundStep at hstep
  cases hpc : s.foreground t with
  | idle => exact absurd hpc hbusy
  | openLock | openPublish | openUnlock | openInit | openAction | openAttempt | openEnqueue =>
    rw [hpc] at hstep
    exact efOpenStep_work hpc rfl hstep
  | statusTest | statusFree | statusCleanup =>
    rw [hpc] at hstep
    exact efOpenStatusStep_work hpc rfl hstep
  | readDispatch | readFree | readDrop | readBuffer | readFire | readEnqueue =>
    rw [hpc] at hstep
    exact efReadStep_work hpc rfl hstep
  | closeFree | syncing | closeTest | closeDrop | closeAlloc | closeDispatch | closing =>
    rw [hpc] at hstep
    exact efCloseStep_work hpc rfl hstep

end Threads

/-! ### Tasks and `slow_sync` -/

theorem diskStep_work {bytes : Option Nat} {task : DiskTask n} {next : Option (DiskTask n)}
    (hstep : s.diskStep bytes task = .ok (s', next)) :
    Aside s s' ∧ (next.elim 0 taskWork < taskWork task ∨
      s' = s ∧ next = some task ∧ ∃ p fd, task = .efFileClose p (.cleanup fd .lockHandle) ∧
        s.handleToFileAction fd ≠ 0) := by
  cases task with
  | efFileOpen p ot =>
    obtain ⟨⟨s₁, ot'⟩, hopen, hok⟩ := bind_eq_ok.mp hstep
    cases hok
    obtain ⟨haside, hlt⟩ := openStep_work hopen
    refine ⟨haside, Or.inl ?_⟩
    cases ot' <;> exact hlt
  | efFileRead p rt =>
    obtain ⟨⟨s₁, rt'⟩, hread, hok⟩ := bind_eq_ok.mp hstep
    cases hok
    obtain ⟨haside, hlt⟩ := readStep_work hread
    refine ⟨haside, Or.inl ?_⟩
    cases rt' <;> exact hlt
  | efFileClose p ct =>
    obtain ⟨⟨s₁, ct'⟩, hclose, hok⟩ := bind_eq_ok.mp hstep
    cases hok
    obtain ⟨haside, hlt | ⟨rfl, rfl, fd, rfl, htaken⟩⟩ := closeStep_work hclose
    · refine ⟨haside, Or.inl ?_⟩
      cases ct' <;> exact hlt
    · exact ⟨haside, Or.inr ⟨rfl, rfl, p, fd, rfl, htaken⟩⟩

/-- A task has less to do after its step, or it waits for the lock. -/
theorem taskStep_work [Fintype T] {bytes : Option Nat} {i : Nat} {task : DiskTask n}
    (hcell : s.tasks.cells i = .live task) (hstep : s.taskStep i bytes = some (.ok s')) :
    tableWork s' < tableWork s ∨ s' = s ∧ ∃ p fd, task = .efFileClose p (.cleanup fd .lockHandle) ∧
      s.handleToFileAction fd ≠ 0 := by
  unfold taskStep at hstep
  simp only [hcell, Option.some.injEq] at hstep
  obtain ⟨⟨s₁, next⟩, hdisk, hok⟩ := bind_eq_ok.mp hstep
  cases hok
  obtain ⟨⟨hfg, htasks, hscan, hfault⟩, hlt | ⟨rfl, rfl, hwait⟩⟩ := diskStep_work hdisk
  · left
    have hnext : cellWork (next.elim .unallocated .live) = next.elim 0 taskWork := by cases next <;> rfl
    have htotal : (s.tasks.set i (next.elim .unallocated .live)).total cellWork + taskWork task
        = s.tasks.total cellWork + next.elim 0 taskWork := by
      rw [← hnext]
      exact Objects.total_set cellWork hcell (by simp) _
    unfold tableWork
    simp only [hfg, htasks, hscan, hfault]
    omega
  · refine Or.inr ⟨?_, hwait⟩
    have hset : s₁.tasks.set i (.live task) = s₁.tasks := Objects.set_same hcell
    show { s₁ with tasks := s₁.tasks.set i (.live task) } = s₁
    rw [hset]

/-- `slow_sync` comes nearer to the end of its round, or it waits for a lock. -/
theorem slowSyncStep_work [Fintype T] (hbusy : s.slowSync ≠ .asleep) (hstep : s.slowSyncStep = .ok s') :
    tableWork s' < tableWork s ∨
      s' = s ∧ ∃ fd, s.slowSync = .syncing fd .lockHandle ∧ s.handleToFileAction fd ≠ 0 := by
  unfold slowSyncStep at hstep
  cases hscan : s.slowSync with
  | asleep => exact absurd hscan hbusy
  | test i =>
    simp only [hscan] at hstep
    cases hstep
    refine Or.inl ?_
    unfold tableWork
    simp only [hscan]
    by_cases hi : i < n
    · rw [dif_pos hi]
      split <;> simp only [scanWork, slotSyncWork] <;> omega
    · rw [dif_neg hi]
      simp only [scanWork]
      omega
  | syncing i sp =>
    simp only [hscan] at hstep
    obtain ⟨⟨s₁, sp'⟩, hsync, hok⟩ := bind_eq_ok.mp hstep
    cases hok
    obtain ⟨⟨hfg, htasks, -, hfault⟩, hlt | ⟨rfl, rfl, rfl, htaken⟩⟩ := slotSyncStep_work hsync
    · left
      unfold tableWork
      simp only [hfg, htasks, hfault, hscan]
      cases sp' <;> simp only [Option.elim_none, Option.elim_some, scanWork] at hlt ⊢ <;> omega
    · refine Or.inr ⟨?_, i, rfl, htaken⟩
      show { s₁ with slowSync := .syncing i .lockHandle } = s₁
      rw [← hscan]

/-! ### At rest -/

section Rest

variable [Fintype T] [DecidableEq T]

/-- What has begun goes on: calls, tasks and the round of `slow_sync`. No new
one begins. -/
def Finishes (s : FileTable n T) : TableLabel n T → Prop
  | .foreground _ _ _ | .task _ _ => True
  | .slowSync => s.slowSync ≠ .asleep
  | .call _ _ | .setCbFunc _ | .handOver _ _ => False

omit [Fintype T] [DecidableEq T] in
theorem Finishes.custodial {l : TableLabel n T} (h : Finishes s l) : Custodial s l := by
  cases l with
  | call t c => exact h.elim
  | foreground | task | slowSync | setCbFunc | handOver => trivial

/-- A step that changes anything leaves less to do. -/
theorem step_work {l : TableLabel n T} (hfinish : Finishes s l) (hmoves : Changes step s l)
    (hstep : step l s = some s') : tableWork s' < tableWork s := by
  have hne : s' ≠ s := fun heq => hmoves (heq ▸ hstep)
  unfold step at hstep
  by_cases hfault : s.fault.isSome = true
  · simp [hfault] at hstep
  · rw [if_neg hfault] at hstep
    obtain ⟨x, hx, hs'⟩ := Option.map_eq_some_iff.mp hstep
    cases x with
    | error e =>
      cases hs'
      unfold tableWork
      simp [hfault]
    | ok s₁ =>
      obtain rfl : s₁ = s' := hs'
      cases l with
      | call | setCbFunc | handOver => exact hfinish.elim
      | foreground t yes bytes =>
        have hbusy : s.foreground t ≠ .idle := by
          intro hidle
          simp [threadStep, hidle] at hx
        have hgo : s.foregroundStep yes bytes t = .ok s₁ := by
          simpa [threadStep, hbusy] using hx
        obtain ⟨q, k, hadv, hlt⟩ | ⟨rfl, -⟩ := foregroundStep_work hbusy hgo
        · exact hadv.work_lt hlt
        · exact absurd rfl hne
      | task i bytes =>
        cases hcell : s.tasks.cells i with
        | live task =>
          obtain hlt | ⟨rfl, -⟩ := taskStep_work hcell hx
          · exact hlt
          · exact absurd rfl hne
        | unallocated | raw => simp [threadStep, taskStep, hcell] at hx
      | slowSync =>
        obtain hlt | ⟨rfl, -⟩ := slowSyncStep_work hfinish (Option.some.inj hx)
        · exact hlt
        · exact absurd rfl hne

omit [Fintype T] in
/-- Where nothing changes any more, a step that is possible changes nothing. -/
theorem still {l : TableLabel n T} {x : Except TableFault (FileTable n T)} (hsound : s.fault = none)
    (hrest : AtRest step (fun s l => Finishes s l ∧ Changes step s l) s) (hfinish : Finishes s l)
    (hx : s.threadStep l = some x) : x = .ok s := by
  have hfault : s.fault.isSome = false := by rw [hsound]; rfl
  cases x with
  | ok s' =>
    have hstep : step l s = some s' := by
      simp [step, hfault, hx]
    rw [hrest.unchanged hstep hfinish]
  | error e =>
    have hstep : step l s = some { s with fault := some e } := by
      simp [step, hfault, hx]
    have hsame := hrest.unchanged hstep hfinish
    rw [← hsame] at hsound
    cases hsound

variable (h : TableInv s job) (hrest : AtRest step (fun s l => Finishes s l ∧ Changes step s l) s)

include h hrest

/-- A thread that is still inside a call waits. -/
theorem waiting_of_rest (hbusy : s.foreground t ≠ .idle) : Waiting s (s.foreground t) := by
  obtain ⟨s', job', hstep, -⟩ := foregroundStep_fine true 0 h t hbusy
  have hx : s.threadStep (.foreground t true 0) = some (.ok s') := by
    simp [threadStep, hstep]
  obtain rfl : s' = s := Except.ok.inj (still (l := .foreground t true 0) h.coherent.sound hrest trivial hx)
  obtain ⟨q, k, hadv, hlt⟩ | ⟨-, hwait⟩ := foregroundStep_work hbusy hstep
  · exact absurd (hadv.work_lt hlt) (Nat.lt_irrefl _)
  · exact hwait

/-- A task that is still there waits. -/
theorem task_waits {i : Nat} {task : DiskTask n} (hcell : s.tasks.cells i = .live task) :
    ∃ p fd, task = .efFileClose p (.cleanup fd .lockHandle) ∧ s.handleToFileAction fd ≠ 0 := by
  obtain ⟨x, hx, -⟩ := taskStep_fine h none hcell
  obtain rfl : x = .ok s := still (l := .task i none) h.coherent.sound hrest trivial hx
  obtain hlt | ⟨-, hwait⟩ := taskStep_work hcell hx
  · exact absurd hlt (Nat.lt_irrefl _)
  · exact hwait

/-- Who waits for a lock has none. -/
theorem unlocked_of_rest (fd : Fin n) : locks (taskAt s (job fd)) (pcAt s fd) (s.custody fd) = false := by
  by_contra hlocked
  have hlocks : locks (taskAt s (job fd)) (pcAt s fd) (s.custody fd) = true :=
    Bool.eq_true_of_not_eq_false hlocked
  cases hc : s.custody fd with
  | queued | lost => simp [hc, locks] at hlocks
  | held t =>
    rw [hc] at hlocks
    have hpc : pcAt s fd = .idle ∨ pcAt s fd = s.foreground t := by
      unfold pcAt
      simp only [hc]
      split
      · exact Or.inr rfl
      · exact Or.inl rfl
    obtain hidle | hsame := hpc
    · simp [hidle, locks, pcLocks] at hlocks
    · have hpcLocks : pcLocks (s.foreground t) = true := by
        rw [← hsame]
        exact hlocks
      have hbusy : s.foreground t ≠ .idle := by
        intro hidle
        simp [hidle, pcLocks] at hpcLocks
      have hwait := waiting_of_rest h hrest hbusy
      unfold Waiting at hwait
      split at hwait <;> simp_all [pcLocks, cleanupLocks, syncLocks, closeLocks]
  | closing =>
    rw [hc] at hlocks
    cases htask : taskAt s (job fd) with
    | none =>
      rw [htask] at hlocks
      cases hlocks
    | some task =>
      rw [htask] at hlocks
      obtain ⟨i, hcell⟩ := cell_of_taskAt htask
      obtain ⟨p, fd', rfl, -⟩ := task_waits h hrest hcell
      cases hlocks

theorem asleep_of_rest : s.slowSync = .asleep := by
  by_contra hbusy
  have hx : s.threadStep .slowSync = some s.slowSyncStep := rfl
  have hstep := still (l := .slowSync) h.coherent.sound hrest hbusy hx
  obtain hlt | ⟨-, fd, hscan, htaken⟩ := slowSyncStep_work hbusy hstep
  · exact absurd hlt (Nat.lt_irrefl _)
  · have hguard := (h.slots fd).guarded
    have hat : scanAt s fd = some .lockHandle := by simp [scanAt, hscan]
    have hvalue := hguard.value
    rw [unlocked_of_rest h hrest fd, hat] at hvalue
    exact htaken hvalue

/-- Nobody has a lock. -/
theorem free_of_rest (fd : Fin n) : s.handleToFileAction fd = 0 := by
  have hvalue := (h.slots fd).guarded.value
  have hat : scanAt s fd = none := by simp [scanAt, asleep_of_rest h hrest]
  rw [unlocked_of_rest h hrest fd, hat] at hvalue
  exact hvalue

theorem idle_of_rest (t : T) : s.foreground t = .idle := by
  by_contra hbusy
  have hwait := waiting_of_rest h hrest hbusy
  have hfree := free_of_rest h hrest
  unfold Waiting at hwait
  split at hwait
  case h_5 fd immediate hpc =>
    -- The record has no action any more.
    obtain ⟨p, r, ida, hderef, htest⟩ := hwait
    obtain ⟨-, ⟨-, p', r', hrec, -, hact⟩, -⟩ := h.at hpc rfl
    cases hrec.derefSlot.symm.trans hderef
    cases (testAction_null hact).symm.trans htest
  case h_6 => exact hwait
  all_goals exact hwait (hfree _)

theorem noTask_of_rest (i : Nat) (task : DiskTask n) : s.tasks.cells i ≠ .live task := by
  intro hcell
  obtain ⟨p, fd, -, htaken⟩ := task_waits h hrest hcell
  exact htaken (free_of_rest h hrest fd)

omit h hrest

/-- A slot between two calls: unused, or with a record that says whether the
file is open. -/
def Answered (s : FileTable n T) (fd : Fin n) : Prop :=
  fd ∈ s.fdQueue ∨ ∃ p r, s.openFiles fd = some p ∧ s.records.cells p = .live r ∧ r.efFd = some fd ∧
    (r.status = .fileOpen ∧ (∃ k, r.fd = some k ∧ s.descriptors.cells k = .live p) ∨
      r.status = .fileNotOpen ∧ ∀ k, s.descriptors.cells k ≠ .live p) ∧
    (r.action = .null ∨ ∃ id a, r.action = .live id a ∧ a.actionStatus = .actionComplete)

/-- Every call has returned, and nothing is under way. -/
structure Quiet (s : FileTable n T) : Prop where
  threads : ∀ t, s.foreground t = .idle
  tasks : ∀ i task, s.tasks.cells i ≠ .live task
  slowSync : s.slowSync = .asleep
  words : ∀ fd, s.handleToFileAction fd = 0
  slots : ∀ fd, Answered s fd

omit [Fintype T] [DecidableEq T] in
theorem closed_of_shut (hptr : s.openFiles fd = some p) (hshut : Shut (view s fd)) :
    ∀ k, s.descriptors.cells k ≠ .live p :=
  fun _ hlive => hshut.elim ((opened_iff hptr).mpr hlive)

omit [Fintype T] [DecidableEq T] in
/-- A record no task works on is settled. -/
theorem Settled.answered (h : Settled (view s fd) r) (hrec : HasRecord fd (view s fd) p r) :
    Answered s fd := by
  have hopen : ∀ hready : Ready (view s fd) r, r.status = .fileOpen ∧
      (∃ k, r.fd = some k ∧ s.descriptors.cells k = .live p) := by
    intro hready
    obtain ⟨k, hk, hlive, -⟩ := hready.derefFd hrec
    exact ⟨hready.1, k, hk, hlive⟩
  refine Or.inr ⟨p, r, hrec.openFiles, hrec.cells, hrec.efFd, ?_⟩
  cases h with
  | plain hready hact => exact ⟨Or.inl (hopen hready), Or.inl hact⟩
  | opened hready hact | read hready hact =>
    obtain ⟨id, a, hact, -, hcomplete, -⟩ := hact
    exact ⟨Or.inl (hopen hready), Or.inr ⟨id, a, hact, hcomplete⟩⟩
  | failed hstatus hshut hact =>
    obtain ⟨id, a, hact, -, hcomplete, -⟩ := hact
    exact ⟨Or.inr ⟨hstatus, closed_of_shut hrec.openFiles hshut⟩, Or.inr ⟨id, a, hact, hcomplete⟩⟩

theorem quiet_of_rest (h : TableInv s job)
    (hrest : AtRest step (fun s l => Finishes s l ∧ Changes step s l) s) : Quiet s where
  threads := idle_of_rest h hrest
  tasks := noTask_of_rest h hrest
  slowSync := asleep_of_rest h hrest
  words := free_of_rest h hrest
  slots fd := by
    have hnone : taskAt s (job fd) = none := by
      by_contra hsome
      obtain ⟨task, htask⟩ := Option.ne_none_iff_exists'.mp hsome
      obtain ⟨i, hcell⟩ := cell_of_taskAt htask
      exact noTask_of_rest h hrest i task hcell
    have hcust := (h.slots fd).custodian
    rw [hnone] at hcust
    cases hc : s.custody fd with
    | queued => exact Or.inl ((h.coherent.queue.2 fd).mpr hc)
    | held t =>
      have hpc : pcAt s fd = .idle := by
        unfold pcAt
        simp only [hc, idle_of_rest h hrest t, ite_self]
      rw [hc, hpc] at hcust
      obtain ⟨p, r, hrec, hsettled⟩ := hcust
      exact Settled.answered hsettled hrec
    | closing =>
      rw [hc] at hcust
      obtain ⟨p, cp, htask, -⟩ := hcust
      cases htask
    | lost =>
      rw [hc] at hcust
      obtain ⟨-, hshut, p, r, hrec, hstatus, hact⟩ := hcust
      exact Or.inr ⟨p, r, hrec.openFiles, hrec.cells, hrec.efFd,
        Or.inr ⟨hstatus, closed_of_shut hrec.openFiles hshut⟩, Or.inl hact⟩

/-- From every state reached, however the threads, the tasks and `slow_sync`
take turns: after a bounded number of steps that change anything all is
quiet, or the run has failed. -/
theorem fileTable_settles (h : Reach step Custodial (initial : FileTable n T) s) :
    Settles step (fun s l => Finishes s l ∧ Changes step s l) (tableWork s)
      (fun s' => s'.fault = none → Quiet s') s := by
  refine .of_measure (I := Reached) (reached h) ?_ ?_
  · rintro s₁ s₂ l hreached ⟨hfinish, hmoves⟩ hstep
    exact ⟨hreached.step hfinish.custodial hstep, step_work hfinish hmoves hstep⟩
  · intro s₁ hreached hrest hsound
    cases hreached with
    | running job hinv => exact quiet_of_rest hinv hrest
    | failed s₀ job e hinv hs =>
      subst hs
      cases hsound

/-- A thread closes its file and is followed by the other one, which opens a
file, while `slow_sync` has the lock of the first slot. -/
theorem fileTable_settles_sample :
    ∃ s : FileTable 2 (Fin 2), s.handleToFileAction 0 = 1 ∧
      Settles step (fun s l => Finishes s l ∧ Changes step s l) (tableWork s)
        (fun s' => s'.fault = none → Quiet s') s :=
  ⟨_, rfl, fileTable_settles (Reach.of_run .init
    ([.call 0 (.efOpen "f" .rdonly)] ++ List.replicate 7 (.foreground 0 true 0) ++
      List.replicate 6 (.task 0 (some 0)) ++ [.call 0 (.efOpenStatus 0)] ++
      List.replicate 3 (.foreground 0 true 0) ++ List.replicate 3 .slowSync ++
      [.call 0 (.efClose 0 true), .call 1 (.efOpen "g" .rdonly)]) rfl)⟩

end Rest

end Efio.Proofs.Evio.Table
