import Efio.Proofs.Evio.SlotSafety
import Mathlib.Data.List.FinRange

/-!
# `Efio.Proofs.Evio.SlotRuns`: the table in every run

Any number of threads open, read and close files, each on slots of its own,
while the pool and `slow_sync` work and the callback is set and unset at any
time. In every state reached:

* `fileTable_faults`: a run fails in two ways only. `slow_sync` can look at
  a record `ef_open` has published and not yet initialised, and a task can
  pass the number of a file to the callback after the record was freed. No
  pointer is followed that is not there, no action is used after it was
  freed, no descriptor is used that is not open, and `evAbort` is not
  called;
* `slots_conserved`: `sg_fd_queue` has every slot once that has no record,
  but for a slot that a thread or a closing task is at work on;
* `memory_accounted`: nothing is lost. Every open descriptor is known to the
  record it was opened for, every record belongs to one slot, and a slot does
  not point to freed memory except under its lock.
-/

set_option autoImplicit false

namespace Efio.Proofs.Evio.Table

open Efio.Lib
open Efio.Evio
open Efio.Evio.FileTable

variable {n : Nat} {T : Type} {fd : Fin n} {v : SlotView n} {s s₀ s' : FileTable n T}
  {job : Fin n → Option Nat} {p k : Nat} {t : T} {pc : TablePc n} {task : Option (DiskTask n)}

/-! ### Reached states -/

theorem tableInv_initial : TableInv (initial : FileTable n T) fun _ => none where
  coherent :=
    { queue := ⟨List.nodup_finRange n, fun fd => by simp [initial]⟩
      inj := fun fd fd' p hp => by cases hp
      given := fun fd p hp => by cases hp
      held := fun t fd ht => by cases ht
      jobInj := fun fd fd' i hi => by cases hi
      jobGiven := fun fd i hi => by cases hi
      tasks := fun i task hi => by cases hi
      named := fun i task p hi => by cases hi
      backed := fun k p hk => by cases hk
      kept := fun p hp => absurd rfl hp
      sound := rfl }
  slots fd :=
    { custodian := ⟨rfl, rfl⟩
      guarded :=
        { value := rfl
          alone := fun hm => by cases hm
          pointer := fun p hp => by cases hp
          live := fun p hp => by cases hp
          allocated := fun _ hptr => absurd rfl hptr } }

/-- How a run fails in the state `s`. -/
def Fails (s : FileTable n T) (e : TableFault) : Prop :=
  e = .uninitialised ∧ ReadsRaw s ∨ e = .useAfterFree ∧ NotifiesFreed s

/-- The states that are reached. -/
inductive Reached (s : FileTable n T) : Prop where
  | running (job : Fin n → Option Nat) (h : TableInv s job)
  | failed (s₀ : FileTable n T) (job : Fin n → Option Nat) (e : TableFault) (h : TableInv s₀ job)
      (hs : s = { s₀ with fault := some e }) (he : Fails s₀ e)

theorem Reached.step [DecidableEq T] {l : TableLabel n T} (h : Reached s) (hok : Custodial s l)
    (hstep : step l s = some s') : Reached s' := by
  cases h with
  | running job hinv =>
    obtain ⟨job', hinv'⟩ | ⟨rfl, hraw⟩ | ⟨rfl, hfreed⟩ := step_cases hinv hok hstep
    · exact .running job' hinv'
    · exact .failed s job .uninitialised hinv rfl (Or.inl ⟨rfl, hraw⟩)
    · exact .failed s job .useAfterFree hinv rfl (Or.inr ⟨rfl, hfreed⟩)
  | failed s₀ job e hinv hs _ =>
    subst hs
    cases hstep

theorem reached [DecidableEq T] (h : Reach FileTable.step Custodial (initial : FileTable n T) s) : Reached s :=
  h.invariant (.running _ tableInv_initial) fun _ _ _ hs hok hstep => hs.step hok hstep

/-- But for `fault`, a state reached has the invariant. -/
theorem Reached.inv (h : Reached s) : ∃ s₀ job e, TableInv s₀ job ∧ s = { s₀ with fault := e } := by
  cases h with
  | running job hinv => exact ⟨s, job, s.fault, hinv, rfl⟩
  | failed s₀ job e hinv hs => exact ⟨s₀, job, some e, hinv, hs⟩

/-! ### A record that is not initialised -/

theorem CleanupOk.raw {c : CleanupPc} (h : CleanupOk fd v c) (hptr : v.ptr = some p) (hraw : v.cell = .raw) :
    cleanupLocks c = true := by
  cases c with
  | lockHandle | testAction | freeAction d | freeBuffer | freeRecord =>
    obtain ⟨-, p, r, hrec, -⟩ := h
    cases hrec.cell.symm.trans hraw
  | clearSlot => rfl
  | unlockHandle | enqueue => cases hptr.symm.trans h

theorem CloseOk.raw {cp : CloseTask n} (h : CloseOk fd v p cp) (hptr : v.ptr = some k)
    (hraw : v.cell = .raw) : closeLocks cp = true := by
  cases cp with
  | cleanup fd' c => exact h.2.raw hptr hraw
  | start | freeBuffer | sysClose =>
    obtain ⟨r, hrec, -⟩ := h
    cases hrec.cell.symm.trans hraw
  | publish ret =>
    obtain ⟨-, -, r, hrec, -⟩ := h
    cases hrec.cell.symm.trans hraw
  | setStatus | complete | notify | readFd =>
    obtain ⟨-, r, hrec, -⟩ := h
    cases hrec.cell.symm.trans hraw
  | statusSlot fd' | statusAction fd' | freeAction fd' d =>
    obtain ⟨-, -, r, hrec, -⟩ := h
    cases hrec.cell.symm.trans hraw

/-- Only `ef_open` leaves a record without content, while it does not have the
lock. -/
theorem PcOk.raw (h : PcOk fd v task pc) (hptr : v.ptr = some p) (hraw : v.cell = .raw)
    (hlocks : pcLocks pc = false) : ∃ fd' oflag, pc = .openInit fd' p oflag := by
  cases pc with
  | openInit fd' p' oflag =>
    cases h.2.2.1.symm.trans hptr
    exact ⟨fd', oflag, rfl⟩
  | openUnlock fd' p' oflag | openPublish fd' oflag => cases hlocks
  | openLock fd' oflag => cases h.2.symm.trans hptr
  | openAction fd' p' oflag =>
    obtain ⟨-, -, -, r, hlive⟩ := h
    cases hlive.symm.trans hraw
  | openAttempt fd' p' | openEnqueue fd' p' =>
    obtain ⟨-, -, r, hrec, -⟩ := h
    cases hrec.cell.symm.trans hraw
  | statusCleanup fd' err c => cases hlocks.symm.trans (h.2.raw hptr hraw)
  | closing fd' p' cp => cases hlocks.symm.trans (h.2.raw hptr hraw)
  | syncing fd' immediate sp =>
    obtain ⟨-, -, p', r, hrec, -⟩ := h
    cases hrec.cell.symm.trans hraw
  | idle | statusTest fd' | readDispatch fd' =>
    obtain ⟨p', r, hrec, -⟩ := h
    cases hrec.cell.symm.trans hraw
  | statusFree fd' d | readFree fd' d k | closeFree fd' immediate synced d | readDrop fd' | readBuffer fd'
  | readFire fd' | readEnqueue fd' | closeTest fd' immediate | closeDrop fd' immediate
  | closeAlloc fd' immediate | closeDispatch fd' immediate =>
    obtain ⟨-, p', r, hrec, -⟩ := h
    cases hrec.cell.symm.trans hraw

/-- `slow_sync` finds a record without content only between the unlock of
`ef_open` and its `EF_FILE_INIT`. -/
theorem TableInv.raw (h : TableInv s job) (hscan : s.slowSync = .syncing fd (.checkStatus p))
    (hraw : s.records.cells p = .raw) :
    s.openFiles fd = some p ∧ ∃ t oflag, s.foreground t = .openInit fd p oflag := by
  obtain ⟨hcust, hguard⟩ := h.slots fd
  have hat : scanAt s fd = some (.checkStatus p) := by simp [scanAt, hscan]
  rw [hat] at hguard
  have hptr : s.openFiles fd = some p := hguard.pointer _ rfl
  have hcell : (view s fd).cell = .raw := by simp [view, cellAt, hptr, hraw]
  have hfree : locks (taskAt s (job fd)) (pcAt s fd) (s.custody fd) = false := by
    cases hm : locks (taskAt s (job fd)) (pcAt s fd) (s.custody fd) with
    | false => rfl
    | true => cases hguard.alone hm
  refine ⟨hptr, ?_⟩
  cases hc : s.custody fd with
  | queued =>
    rw [hc] at hcust
    cases hptr.symm.trans hcust.2
  | closing =>
    rw [hc] at hcust hfree
    obtain ⟨p', cp, htask, hclose⟩ := hcust
    rw [htask] at hfree
    cases hfree.symm.trans (hclose.raw hptr hcell)
  | lost =>
    rw [hc] at hcust
    obtain ⟨-, -, p', r, hrec, -⟩ := hcust
    cases hrec.cell.symm.trans hcell
  | held t =>
    rw [hc] at hcust hfree
    obtain ⟨fd', oflag, hpc⟩ := PcOk.raw hcust hptr hcell hfree
    refine ⟨t, oflag, ?_⟩
    unfold pcAt at hpc
    simp only [hc] at hpc
    split at hpc
    · rename_i hslot
      rw [hpc] at hslot ⊢
      cases hslot
      rfl
    · cases hpc

theorem fileTable_faults [DecidableEq T] (h : Reach step Custodial (initial : FileTable n T) s) :
    s.fault = none ∨
      s.fault = some .uninitialised ∧
        (∃ fd p t oflag, s.slowSync = .syncing fd (.checkStatus p) ∧ s.openFiles fd = some p ∧
          s.records.cells p = .raw ∧ s.foreground t = .openInit fd p oflag) ∨
      s.fault = some .useAfterFree ∧
        ∃ i task p, s.tasks.cells i = .live task ∧ notified? task = some p ∧
          s.records.cells p = .unallocated ∧ s.cbFunc = true := by
  cases reached h with
  | running job hinv => exact Or.inl hinv.coherent.sound
  | failed s₀ job e hinv hs he =>
    subst hs
    obtain ⟨rfl, fd, p, hscan, hraw⟩ | ⟨rfl, hfreed⟩ := he
    · obtain ⟨hptr, t, oflag, hpc⟩ := hinv.raw hscan hraw
      exact Or.inr (Or.inl ⟨rfl, fd, p, t, oflag, hscan, hptr, hraw, hpc⟩)
    · exact Or.inr (Or.inr ⟨rfl, hfreed⟩)

/-- `slow_sync` comes to the slot while `ef_open` is about to initialise the
record. -/
theorem fileTable_faults_sample :
    ∃ s : FileTable 1 Unit, s.fault = some .uninitialised ∧
      (s.fault = none ∨
        s.fault = some .uninitialised ∧
          (∃ fd p t oflag, s.slowSync = .syncing fd (.checkStatus p) ∧ s.openFiles fd = some p ∧
            s.records.cells p = .raw ∧ s.foreground t = .openInit fd p oflag) ∨
        s.fault = some .useAfterFree ∧
          ∃ i task p, s.tasks.cells i = .live task ∧ notified? task = some p ∧
            s.records.cells p = .unallocated ∧ s.cbFunc = true) :=
  ⟨_, rfl, fileTable_faults (Reach.of_run .init
    [.call () (.efOpen "f" .rdonly), .foreground () true 0, .foreground () true 0,
      .foreground () true 0, .slowSync, .slowSync, .slowSync, .slowSync, .slowSync] rfl)⟩

/-! ### The slots -/

/-- A task of a slot is one of the pool. -/
theorem cell_of_taskAt {j : Option Nat} {c : DiskTask n} (h : taskAt s j = some c) :
    ∃ i, s.tasks.cells i = .live c := by
  obtain ⟨i, -, hi⟩ := Option.bind_eq_some_iff.mp h
  split at hi
  · rename_i hcell
    cases hi
    exact ⟨i, hcell⟩
  · cases hi
  · cases hi

theorem CloseOk.cleanup {cp : CloseTask n} (h : CloseOk fd v p cp) (hptr : v.ptr = none) :
    ∃ c, cp = .cleanup fd c := by
  cases cp with
  | cleanup fd' c => exact ⟨c, by rw [h.1]⟩
  | start | freeBuffer | sysClose =>
    obtain ⟨r, hrec, -⟩ := h
    cases hptr.symm.trans hrec.ptr
  | publish ret =>
    obtain ⟨-, -, r, hrec, -⟩ := h
    cases hptr.symm.trans hrec.ptr
  | setStatus | complete | notify | readFd =>
    obtain ⟨-, r, hrec, -⟩ := h
    cases hptr.symm.trans hrec.ptr
  | statusSlot fd' | statusAction fd' | freeAction fd' d =>
    obtain ⟨-, -, r, hrec, -⟩ := h
    cases hptr.symm.trans hrec.ptr

/-- A slot that is in use is not in `sg_fd_queue`, and one that is not in use
is. -/
theorem TableInv.unused (h : TableInv s job) (fd : Fin n) :
    s.custody fd = .queued ↔ s.openFiles fd = none ∧ (∀ t, slot? (s.foreground t) ≠ some fd) ∧
      ∀ i p c, s.tasks.cells i ≠ .live (.efFileClose p (.cleanup fd c)) := by
  have hcust := (h.slots fd).custodian
  constructor
  · intro hqueued
    rw [hqueued] at hcust
    refine ⟨hcust.2, fun t ht => ?_, fun i p c hcell => ?_⟩
    · cases hqueued.symm.trans (h.coherent.held t fd ht)
    · obtain ⟨fd', hjob⟩ := h.coherent.tasks i _ hcell rfl
      have htask : taskAt s (job fd') = some (.efFileClose p (.cleanup fd c)) := by
        simp [taskAt, hjob, hcell]
      have hslot := (h.slots fd').custodian
      rw [htask] at hslot
      cases hc : s.custody fd' with
      | queued | lost =>
        rw [hc] at hslot
        cases hslot.1
      | held t =>
        rw [hc] at hslot
        obtain ⟨-, p', r, -, hwork, -⟩ := PcOk.working hslot
        exact hwork.elim
      | closing =>
        rw [hc] at hslot
        obtain ⟨p', cp, heq, hclose⟩ := hslot
        cases heq
        cases hclose.1
        cases hqueued.symm.trans hc
  · rintro ⟨hptr, hnobody, hnotask⟩
    cases hc : s.custody fd with
    | queued => rfl
    | held t =>
      have hidle : pcAt s fd = .idle := by
        unfold pcAt
        simp only [hc, if_neg (hnobody t)]
      rw [hc, hidle] at hcust
      obtain ⟨p, r, hrec, -⟩ := hcust
      cases hptr.symm.trans hrec.openFiles
    | lost =>
      rw [hc] at hcust
      obtain ⟨-, -, p, r, hrec, -⟩ := hcust
      cases hptr.symm.trans hrec.openFiles
    | closing =>
      rw [hc] at hcust
      obtain ⟨p, cp, htask, hclose⟩ := hcust
      obtain ⟨c, rfl⟩ := hclose.cleanup hptr
      obtain ⟨i, hcell⟩ := cell_of_taskAt htask
      exact absurd hcell (hnotask i p c)

theorem slots_conserved [DecidableEq T] (h : Reach step Custodial (initial : FileTable n T) s) :
    s.fdQueue.Nodup ∧
      ∀ fd, fd ∈ s.fdQueue ↔ s.openFiles fd = none ∧ (∀ t, slot? (s.foreground t) ≠ some fd) ∧
        ∀ i p c, s.tasks.cells i ≠ .live (.efFileClose p (.cleanup fd c)) := by
  obtain ⟨s₀, job, e, hinv, rfl⟩ := (reached h).inv
  obtain ⟨hnodup, hmem⟩ := hinv.coherent.queue
  exact ⟨hnodup, fun fd => (hmem fd).trans (hinv.unused fd)⟩

/-- The file could not be opened, and its slot is behind the other one. -/
theorem slots_conserved_sample :
    ∃ s : FileTable 2 Unit, s.fdQueue = [1, 0] ∧ s.fdQueue.Nodup ∧
      ∀ fd, fd ∈ s.fdQueue ↔ s.openFiles fd = none ∧ (∀ t, slot? (s.foreground t) ≠ some fd) ∧
        ∀ i p c, s.tasks.cells i ≠ .live (.efFileClose p (.cleanup fd c)) :=
  ⟨_, rfl, slots_conserved (Reach.of_run .init
    ([.call () (.efOpen "f" .rdonly)] ++ List.replicate 7 (.foreground () true 0) ++
      List.replicate 6 (.task 0 none) ++ [.call () (.efOpenStatus 0)] ++
      List.replicate 10 (.foreground () true 0)) rfl)⟩

/-! ### Records and descriptors -/

theorem Ready.opened {r : FileRecord n} (h : Ready v r) (hk : v.opened k = true) : r.fd = some k := by
  obtain ⟨-, k', hfd, hopened⟩ := h
  rw [hfd, (hopened k).mp hk]

theorem Shut.elim {P : Prop} (h : Shut v) (hk : v.opened k = true) : P := by
  cases (h k).symm.trans hk

theorem Working.opened {r : FileRecord n} (h : Working v p r task) (hk : v.opened k = true) :
    r.fd = some k := by
  cases task with
  | none =>
    cases h with
    | plain hready | opened hready | read hready => exact hready.opened hk
    | failed _ hshut => exact hshut.elim hk
  | some task =>
    cases task with
    | efFileOpen p' pc =>
      obtain ⟨-, hopening⟩ := h
      cases pc with
      | start | sysOpen => exact hopening.2.2.elim hk
      | publish => exact (hopening.2.2 k).mp hk
      | complete | setStatus => exact (hopening.2.1 k).mp hk
      | notify => exact hopening.elim
    | efFileRead p' pc =>
      obtain ⟨-, hreading⟩ := h
      cases pc with
      | notify wasEmpty => exact hreading.elim
      | start | load | publish ret wasEmpty | complete wasEmpty => exact hreading.1.opened hk
    | efFileClose p' pc => exact h.elim

theorem CleanupOk.shut {c : CleanupPc} (h : CleanupOk fd v c) : v.ptr = none ∨ Shut v := by
  cases c with
  | unlockHandle | enqueue => exact Or.inl h
  | lockHandle | testAction | freeAction d | freeBuffer | freeRecord | clearSlot => exact Or.inr h.1

theorem CloseOk.opened {cp : CloseTask n} (h : CloseOk fd v p cp) (hptr : v.ptr ≠ none)
    (hk : v.opened k = true) : ∃ r, v.cell = .live r ∧ r.fd = some k := by
  cases cp with
  | start | freeBuffer | sysClose =>
    obtain ⟨r, hrec, hready, -⟩ := h
    exact ⟨r, hrec.cell, hready.opened hk⟩
  | publish ret => exact h.2.1.elim hk
  | setStatus | complete | notify | readFd => exact h.1.elim hk
  | statusSlot fd' | statusAction fd' | freeAction fd' d => exact h.2.1.elim hk
  | cleanup fd' c =>
    obtain hnone | hshut := h.2.shut
    · exact absurd hnone hptr
    · exact hshut.elim hk

theorem PcOk.opened (h : PcOk fd v task pc) (hptr : v.ptr ≠ none) (hk : v.opened k = true) :
    ∃ r, v.cell = .live r ∧ r.fd = some k := by
  cases pc with
  | idle | statusTest fd' | readDispatch fd' =>
    obtain ⟨p, r, hrec, hwork⟩ := h
    exact ⟨r, hrec.cell, Working.opened (by first | exact hwork | exact hwork.1) hk⟩
  | openLock fd' oflag | openPublish fd' oflag => exact absurd h.2 hptr
  | openUnlock fd' p oflag | openInit fd' p oflag | openAction fd' p oflag | openAttempt fd' p
  | openEnqueue fd' p => exact h.2.1.elim hk
  | statusCleanup fd' err c =>
    obtain hnone | hshut := h.2.shut
    · exact absurd hnone hptr
    · exact hshut.elim hk
  | syncing fd' immediate sp =>
    obtain ⟨-, -, p, r, hrec, hready, -⟩ := h
    exact ⟨r, hrec.cell, hready.opened hk⟩
  | closing fd' p cp => exact h.2.opened hptr hk
  | statusFree fd' d | readFree fd' d k | closeFree fd' immediate synced d | readDrop fd' | readBuffer fd'
  | readFire fd' | readEnqueue fd' | closeTest fd' immediate | closeDrop fd' immediate
  | closeAlloc fd' immediate | closeDispatch fd' immediate =>
    obtain ⟨-, p, r, hrec, hready, -⟩ := h
    exact ⟨r, hrec.cell, hready.opened hk⟩

/-- The record a descriptor is open for knows it. -/
theorem TableInv.opened (h : TableInv s job) (hk : s.descriptors.cells k = .live p) :
    ∃ fd r, s.openFiles fd = some p ∧ s.records.cells p = .live r ∧ r.fd = some k := by
  obtain ⟨fd, hptr⟩ := h.coherent.backed k p hk
  have hopen : (view s fd).opened k = true := (opened_iff hptr).mpr hk
  have hsome : (view s fd).ptr ≠ none := by simp [view, hptr]
  have hcust := (h.slots fd).custodian
  have hknown : ∃ r, (view s fd).cell = .live r ∧ r.fd = some k := by
    cases hc : s.custody fd with
    | queued =>
      rw [hc] at hcust
      exact absurd hcust.2 hsome
    | held t =>
      rw [hc] at hcust
      exact PcOk.opened hcust hsome hopen
    | closing =>
      rw [hc] at hcust
      obtain ⟨p', cp, -, hclose⟩ := hcust
      exact hclose.opened hsome hopen
    | lost =>
      rw [hc] at hcust
      exact hcust.2.1.elim hopen
  obtain ⟨r, hcell, hfd⟩ := hknown
  exact ⟨fd, r, hptr, cells_of_view hptr hcell, hfd⟩

/-- A record is freed under the lock of its slot only. -/
theorem TableInv.dangling (h : TableInv s job) (hptr : s.openFiles fd = some p)
    (hfreed : s.records.cells p = .unallocated) : s.handleToFileAction fd = 1 := by
  have hguard := (h.slots fd).guarded
  have hcell : (view s fd).cell = .unallocated := by simp [view, cellAt, hptr, hfreed]
  cases hm : locks (taskAt s (job fd)) (pcAt s fd) (s.custody fd) with
  | true =>
    rw [hm] at hguard
    exact hguard.word_of_mine
  | false => exact absurd hcell (hguard.allocated hm (by simp [view, hptr]))

theorem memory_accounted [DecidableEq T] (h : Reach step Custodial (initial : FileTable n T) s) :
    (∀ k p, s.descriptors.cells k = .live p →
        ∃ fd r, s.openFiles fd = some p ∧ s.records.cells p = .live r ∧ r.fd = some k) ∧
      (∀ p, s.records.cells p ≠ .unallocated → ∃! fd, s.openFiles fd = some p) ∧
      ∀ fd p, s.openFiles fd = some p → s.records.cells p = .unallocated → s.handleToFileAction fd = 1 := by
  obtain ⟨s₀, job, e, hinv, rfl⟩ := (reached h).inv
  refine ⟨fun k p hk => hinv.opened hk, fun p hp => ?_, fun fd p hptr hfreed => hinv.dangling hptr hfreed⟩
  obtain ⟨fd, hfd⟩ := hinv.coherent.kept p hp
  exact ⟨fd, hfd, fun fd' hfd' => hinv.coherent.inj fd' fd p hfd' hfd⟩

/-- Two threads have opened a file each. -/
theorem memory_accounted_sample :
    ∃ s : FileTable 2 (Fin 2), s.descriptors.fresh = 2 ∧
      (∀ k p, s.descriptors.cells k = .live p →
        ∃ fd r, s.openFiles fd = some p ∧ s.records.cells p = .live r ∧ r.fd = some k) ∧
      (∀ p, s.records.cells p ≠ .unallocated → ∃! fd, s.openFiles fd = some p) ∧
      ∀ fd p, s.openFiles fd = some p → s.records.cells p = .unallocated → s.handleToFileAction fd = 1 :=
  ⟨_, rfl, memory_accounted (Reach.of_run .init
    ([.call 0 (.efOpen "f" .rdonly), .call 1 (.efOpen "g" .rdonly)] ++
      List.replicate 7 (.foreground 0 true 0) ++ List.replicate 7 (.foreground 1 true 0) ++
      List.replicate 6 (.task 1 (some 0)) ++ List.replicate 6 (.task 0 (some 0))) rfl)⟩

end Efio.Proofs.Evio.Table
