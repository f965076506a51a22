import Efio.Evio.FileTable

/-!
# `Efio.Proofs.Evio.FileTable`: what holds of each slot

Every slot is looked after by one party: the queue of unused slots, the
thread that has opened it, or the task that closes it. `view` is what this
party sees of the memory: the pointer, the record behind it, and the
descriptors opened for it. `SlotOk` says what holds there, by the place of
the party, and that it and `slow_sync` take the lock of the slot in turn.

A step of one party leaves the other slots as they are (`Touches`), so the
invariant has to be shown for its own slot only (`TableInv.local`).
-/

set_option autoImplicit false

namespace Efio.Proofs.Evio.Table

open Efio.Lib
open Efio.Evio
open Efio.Evio.FileTable

variable {n : Nat} {T : Type}

/-! ### Places -/

/-- The slot a thread works on. -/
def slot? : TablePc n → Option (Fin n)
  | .idle => none
  | .openLock fd _ | .openPublish fd _ | .openUnlock fd _ _ | .openInit fd _ _ | .openAction fd _ _
  | .openAttempt fd _ | .openEnqueue fd _ | .statusTest fd | .statusFree fd _
  | .statusCleanup fd _ _ | .readDispatch fd | .readFree fd _ _ | .readDrop fd | .readBuffer fd
  | .readFire fd | .readEnqueue fd | .closeFree fd _ _ _ | .syncing fd _ _ | .closeTest fd _
  | .closeDrop fd _ | .closeAlloc fd _ | .closeDispatch fd _ | .closing fd _ _ => some fd

def syncLocks : SlotSyncPc → Bool
  | .lockHandle => false
  | .checkFile | .checkStatus _ | .checkOflag _ | .unlockHandle => true

def cleanupLocks : CleanupPc → Bool
  | .testAction | .freeAction _ | .freeBuffer | .freeRecord | .clearSlot | .unlockHandle => true
  | .lockHandle | .enqueue => false

def closeLocks : CloseTask n → Bool
  | .cleanup _ c => cleanupLocks c
  | _ => false

/-- The thread has the lock of its slot. -/
def pcLocks : TablePc n → Bool
  | .openPublish _ _ | .openUnlock _ _ _ => true
  | .statusCleanup _ _ c => cleanupLocks c
  | .syncing _ _ p => syncLocks p
  | .closing _ _ pc => closeLocks pc
  | _ => false

def taskLocks : DiskTask n → Bool
  | .efFileClose _ pc => closeLocks pc
  | _ => false

/-- The record of a task that has only to call the callback. -/
def notified? : DiskTask n → Option Nat
  | .efFileOpen p .notify | .efFileRead p (.notify _) => some p
  | _ => none

/-- The task has still to do with the record. -/
def busy (task : DiskTask n) : Bool := (notified? task).isNone

/-! ### The view -/

/-- The memory of a slot: `sg_open_files[fd]`, the record there, and which
descriptors are open for it. -/
structure SlotView (n : Nat) where
  ptr : Option Nat
  cell : Cell (FileRecord n)
  opened : Nat → Bool

def cellAt (s : FileTable n T) (q : Option Nat) : Cell (FileRecord n) :=
  q.elim .unallocated s.records.cells

def openedFor (s : FileTable n T) (q : Option Nat) (k : Nat) : Bool :=
  q.any fun p => s.descriptors.cells k == .live p

def view (s : FileTable n T) (fd : Fin n) : SlotView n :=
  { ptr := s.openFiles fd
    cell := cellAt s (s.openFiles fd)
    opened := openedFor s (s.openFiles fd) }

/-- Where the thread with the slot `fd` is on it. -/
def pcAt (s : FileTable n T) (fd : Fin n) : TablePc n :=
  match s.custody fd with
  | .held t => if slot? (s.foreground t) = some fd then s.foreground t else .idle
  | .queued | .closing | .lost => .idle

/-- Where `slow_sync` is on the slot `fd`. -/
def scanAt (s : FileTable n T) (fd : Fin n) : Option SlotSyncPc :=
  match s.slowSync with
  | .syncing i p => if i = fd then some p else none
  | .asleep | .test _ => none

/-- The task with the number `job`. -/
def taskAt (s : FileTable n T) (job : Option Nat) : Option (DiskTask n) :=
  job.bind fun i =>
    match s.tasks.cells i with
    | .live task => some task
    | .unallocated | .raw => none

/-! ### The record -/

variable (fd : Fin n) (v : SlotView n)

/-- The slot has the record `r` at `p`. -/
structure HasRecord (p : Nat) (r : FileRecord n) : Prop where
  ptr : v.ptr = some p
  cell : v.cell = .live r
  efFd : r.efFd = some fd

/-- No descriptor is open for the record. -/
def Shut : Prop := ∀ k, v.opened k = false

/-- The file is open, with one descriptor of its own. -/
def Ready (r : FileRecord n) : Prop :=
  r.status = .fileOpen ∧ ∃ k, r.fd = some k ∧ ∀ k', v.opened k' = true ↔ k' = k

/-- An action `oper` that is not complete. -/
def Pending (oper : FileOper) (r : FileRecord n) : Prop :=
  ∃ id a, r.action = .live id a ∧ a.cmd = oper ∧ a.actionStatus ≠ .actionComplete

/-- A complete action `oper` with a return value `P`. -/
def Completed (oper : FileOper) (P : Int → Prop) (r : FileRecord n) : Prop :=
  ∃ id a, r.action = .live id a ∧ a.cmd = oper ∧ a.actionStatus = .actionComplete ∧ P a.returnValue

/-- There is an action to free, or one that has been freed. -/
def Dropping (r : FileRecord n) : DropPc → Prop
  | .cleanup => ∃ id a, r.action = .live id a
  | .setNull => r.action = .freed

/-- No task works on the record: the file is open, or could not be opened and
nobody has asked yet. -/
inductive Settled (r : FileRecord n) : Prop where
  | plain (hready : Ready v r) (hact : r.action = .null)
  | opened (hready : Ready v r) (hact : Completed .operOpen (· ≠ -1) r)
  | read (hready : Ready v r) (hact : Completed .operRead (fun _ => True) r)
  | failed (hstatus : r.status = .fileNotOpen) (hshut : Shut v)
      (hact : Completed .operOpen (· = -1) r)

/-- `_return_value` of the open action. -/
def openValue (r : FileRecord n) : Int := r.fd.elim (-1) fun k => k

/-- The descriptor, if there is one, is the only one open. -/
def FdOk (r : FileRecord n) : Prop := ∀ k, v.opened k = true ↔ r.fd = some k

/-- `ef_file_open` is at work. -/
def Opening (r : FileRecord n) : OpenTask → Prop
  | .start | .sysOpen => r.status = .fileOpenAttempted ∧ Pending .operOpen r ∧ Shut v
  | .publish => r.status = .fileOpenAttempted ∧ Pending .operOpen r ∧ FdOk v r
  | .complete =>
    r.status = .fileOpenAttempted ∧ FdOk v r ∧
      ∃ id a, r.action = .live id a ∧ a.cmd = .operOpen ∧ a.actionStatus ≠ .actionComplete ∧
        a.returnValue = openValue r
  | .setStatus =>
    r.status = .fileOpenAttempted ∧ FdOk v r ∧ Completed .operOpen (· = openValue r) r
  | .notify => False

/-- `ef_file_read` is at work. -/
def Reading (r : FileRecord n) : ReadTask → Prop
  | .start | .load | .publish _ _ | .complete _ => Ready v r ∧ Pending .operRead r
  | .notify _ => False

/-- What the task does with the record `r` at `p`. -/
def Working (p : Nat) (r : FileRecord n) : Option (DiskTask n) → Prop
  | none => Settled v r
  | some (.efFileOpen p' pc) => p' = p ∧ Opening v r pc
  | some (.efFileRead p' pc) => p' = p ∧ Reading v r pc
  | some (.efFileClose _ _) => False

/-! ### The places of the custodian -/

/-- `EF_FILE_CLEANUP` at its place. -/
def CleanupOk : CleanupPc → Prop
  | .lockHandle | .testAction => Shut v ∧ ∃ p r, HasRecord fd v p r ∧ Dropping r .cleanup
  | .freeAction d => Shut v ∧ ∃ p r, HasRecord fd v p r ∧ Dropping r d
  | .freeBuffer | .freeRecord => Shut v ∧ ∃ p r, HasRecord fd v p r ∧ r.action = .null
  | .clearSlot => Shut v ∧ v.ptr ≠ none ∧ v.cell = .unallocated
  | .unlockHandle | .enqueue => v.ptr = none

/-- What `close` returns. -/
def CloseValue (ret : Int) : Prop := ret = 0 ∨ ret = -1

/-- `ef_file_close` at its place, on the record at `p`. -/
def CloseOk (p : Nat) : CloseTask n → Prop
  | .start | .freeBuffer | .sysClose =>
    ∃ r, HasRecord fd v p r ∧ Ready v r ∧ Pending .operClose r
  | .publish ret => CloseValue ret ∧ Shut v ∧ ∃ r, HasRecord fd v p r ∧ Pending .operClose r
  | .setStatus =>
    Shut v ∧ ∃ r, HasRecord fd v p r ∧ ∃ id a, r.action = .live id a ∧ a.cmd = .operClose ∧
      a.actionStatus ≠ .actionComplete ∧ CloseValue a.returnValue
  | .complete =>
    Shut v ∧ ∃ r, HasRecord fd v p r ∧ r.status = .fileNotOpen ∧ ∃ id a, r.action = .live id a ∧
      a.cmd = .operClose ∧ a.actionStatus ≠ .actionComplete ∧ CloseValue a.returnValue
  | .notify | .readFd =>
    Shut v ∧ ∃ r, HasRecord fd v p r ∧ r.status = .fileNotOpen ∧ Completed .operClose CloseValue r
  | .statusSlot fd' | .statusAction fd' =>
    fd' = fd ∧ Shut v ∧
      ∃ r, HasRecord fd v p r ∧ r.status = .fileNotOpen ∧ Completed .operClose CloseValue r
  | .freeAction fd' d =>
    fd' = fd ∧ Shut v ∧ ∃ r, HasRecord fd v p r ∧ r.status = .fileNotOpen ∧ Dropping r d
  | .cleanup fd' c => fd' = fd ∧ CleanupOk fd v c

/-- The pointer `sync_file_writes` has read. -/
def SyncPtr (q : Option Nat) : SlotSyncPc → Prop
  | .checkStatus p | .checkOflag p => q = some p
  | .lockHandle | .checkFile | .unlockHandle => True

/-- The thread with the slot, at its place, when it waits for `task`. -/
def PcOk (task : Option (DiskTask n)) : TablePc n → Prop
  | .idle => ∃ p r, HasRecord fd v p r ∧ Working v p r task
  | .openLock _ _ | .openPublish _ _ => task = none ∧ v.ptr = none
  | .openUnlock _ p _ | .openInit _ p _ =>
    task = none ∧ Shut v ∧ v.ptr = some p ∧ v.cell = .raw
  | .openAction _ p _ => task = none ∧ Shut v ∧ v.ptr = some p ∧ ∃ r, v.cell = .live r
  | .openAttempt _ p => task = none ∧ Shut v ∧ ∃ r, HasRecord fd v p r ∧ Pending .operOpen r
  | .openEnqueue _ p =>
    task = none ∧ Shut v ∧
      ∃ r, HasRecord fd v p r ∧ r.status = .fileOpenAttempted ∧ Pending .operOpen r
  | .statusTest _ =>
    ∃ p r, HasRecord fd v p r ∧ Working v p r task ∧ r.status ≠ .fileOpenAttempted
  | .statusFree _ d | .readFree _ d _ | .closeFree _ _ _ d =>
    task = none ∧ ∃ p r, HasRecord fd v p r ∧ Ready v r ∧ Dropping r d
  | .statusCleanup _ _ c => task = none ∧ CleanupOk fd v c
  | .readDispatch _ =>
    ∃ p r, HasRecord fd v p r ∧ Working v p r task ∧ r.status = .fileOpen
  | .readDrop _ => task = none ∧ ∃ p r, HasRecord fd v p r ∧ Ready v r ∧ Settled v r
  | .readBuffer _ | .readFire _ | .closeTest _ _ | .closeDrop _ _ | .closeAlloc _ _ =>
    task = none ∧ ∃ p r, HasRecord fd v p r ∧ Ready v r ∧ r.action = .null
  | .readEnqueue _ =>
    task = none ∧ ∃ p r, HasRecord fd v p r ∧ Ready v r ∧ Pending .operRead r
  | .syncing _ _ sp =>
    task = none ∧ SyncPtr v.ptr sp ∧ ∃ p r, HasRecord fd v p r ∧ Ready v r ∧ r.action = .null
  | .closeDispatch _ _ =>
    task = none ∧ ∃ p r, HasRecord fd v p r ∧ Ready v r ∧ Pending .operClose r
  | .closing _ p pc => task = none ∧ CloseOk fd v p pc

/-- What holds at the slot by its custody. -/
def CustodianOk (task : Option (DiskTask n)) (pc : TablePc n) : Custody T → Prop
  | .queued => task = none ∧ v.ptr = none
  | .held _ => PcOk fd v task pc
  | .closing => ∃ p pc, task = some (.efFileClose p pc) ∧ CloseOk fd v p pc
  | .lost =>
    task = none ∧ Shut v ∧ ∃ p r, HasRecord fd v p r ∧ r.status = .fileNotOpen ∧ r.action = .null

/-! ### The lock of the slot -/

/-- The custodian has the lock of the slot. -/
def locks (task : Option (DiskTask n)) (pc : TablePc n) : Custody T → Bool
  | .held _ => pcLocks pc
  | .closing => task.any taskLocks
  | .queued | .lost => false

/-- The word tells whether the custodian (`mine`) or `slow_sync` has the lock.
`slow_sync` keeps the pointer it has read, and the record is not freed while
the custodian does not have the lock. -/
structure Guarded (word : Int) (scan : Option SlotSyncPc) (mine : Bool) : Prop where
  value : word = if mine || scan.any syncLocks then 1 else 0
  alone : mine = true → scan.any syncLocks = false
  pointer : ∀ p, scan = some p → SyncPtr v.ptr p
  live : ∀ p, scan = some (.checkOflag p) → ∃ r, v.cell = .live r
  allocated : mine = false → v.ptr ≠ none → v.cell ≠ .unallocated

/-- What holds at the slot `fd` with the task `job`. -/
structure SlotOk (s : FileTable n T) (job : Option Nat) : Prop where
  custodian : CustodianOk fd (view s fd) (taskAt s job) (pcAt s fd) (s.custody fd)
  guarded : Guarded (view s fd) (s.handleToFileAction fd) (scanAt s fd)
    (locks (taskAt s job) (pcAt s fd) (s.custody fd))

/-! ### The whole table -/

/-- Every slot is in `sg_fd_queue` once, or not there and not unused. -/
def QueueOk (s : FileTable n T) : Prop :=
  s.fdQueue.Nodup ∧ ∀ fd, fd ∈ s.fdQueue ↔ s.custody fd = .queued

/-- The record at `p` is freed, or knows its number. -/
def Named (s : FileTable n T) (p : Nat) : Prop :=
  p < s.records.fresh ∧
    (s.records.cells p = .unallocated ∨ ∃ r, s.records.cells p = .live r ∧ r.efFd ≠ none)

/-- Every descriptor is open for a record in the table. -/
def Backed (s : FileTable n T) : Prop :=
  ∀ k p, s.descriptors.cells k = .live p → ∃ fd, s.openFiles fd = some p

/-- Every record that is allocated is in the table. -/
def Kept (s : FileTable n T) : Prop :=
  ∀ p, s.records.cells p ≠ .unallocated → ∃ fd, s.openFiles fd = some p

/-- How the slots belong together. `job` gives the task a slot waits for, or
the one that closes it. -/
structure Coherent (s : FileTable n T) (job : Fin n → Option Nat) : Prop where
  queue : QueueOk s
  inj : ∀ fd fd' p, s.openFiles fd = some p → s.openFiles fd' = some p → fd = fd'
  given : ∀ fd p, s.openFiles fd = some p → p < s.records.fresh
  held : ∀ t fd, slot? (s.foreground t) = some fd → s.custody fd = .held t
  jobInj : ∀ fd fd' i, job fd = some i → job fd' = some i → fd = fd'
  jobGiven : ∀ fd i, job fd = some i → i < s.tasks.fresh
  tasks : ∀ i task, s.tasks.cells i = .live task → busy task = true → ∃ fd, job fd = some i
  named : ∀ i task p, s.tasks.cells i = .live task → notified? task = some p → Named s p
  backed : Backed s
  kept : Kept s
  sound : s.fault = none

/-- What holds in every state reached without a fault. -/
structure TableInv (s : FileTable n T) (job : Fin n → Option Nat) : Prop where
  coherent : Coherent s job
  slots : ∀ fd, SlotOk fd s (job fd)

variable {fd v} {s s' s'' : FileTable n T} {job job' : Fin n → Option Nat} {own : Option Nat} {p k : Nat}
  {r : FileRecord n}

/-! ### What a step on one slot leaves alone -/

/-- The step from `s` to `s'` is one on the slot `fd` and its record `own`. -/
structure Touches (s s' : FileTable n T) (fd : Fin n) (own : Option Nat) : Prop where
  custody : ∀ fd', fd' ≠ fd → s'.custody fd' = s.custody fd'
  openFiles : ∀ fd', fd' ≠ fd → s'.openFiles fd' = s.openFiles fd'
  word : ∀ fd', fd' ≠ fd → s'.handleToFileAction fd' = s.handleToFileAction fd'
  records : ∀ p, p < s.records.fresh → own ≠ some p → s'.records.cells p = s.records.cells p
  descriptors : ∀ p, p < s.records.fresh → own ≠ some p →
    ∀ k, s'.descriptors.cells k = .live p ↔ s.descriptors.cells k = .live p
  fresh : s.records.fresh ≤ s'.records.fresh
  slot : ∀ p, s'.openFiles fd = some p →
    s.openFiles fd = some p ∨ s.records.fresh ≤ p ∧ p < s'.records.fresh
  queue : QueueOk s → QueueOk s'
  named : ∀ p, Named s p → Named s' p
  backed : Backed s → Backed s'
  kept : Kept s → Kept s'
  slowSync : s'.slowSync = s.slowSync
  fault : s'.fault = s.fault

theorem Touches.refl (s : FileTable n T) (fd : Fin n) (own : Option Nat) : Touches s s fd own where
  custody _ _ := rfl
  openFiles _ _ := rfl
  word _ _ := rfl
  records _ _ _ := rfl
  descriptors _ _ _ _ := Iff.rfl
  fresh := Nat.le_refl _
  slot _ h := Or.inl h
  queue h := h
  named _ h := h
  backed h := h
  kept h := h
  slowSync := rfl
  fault := rfl

theorem Touches.trans (h : Touches s s' fd own) (h' : Touches s' s'' fd own) : Touches s s'' fd own where
  custody fd' hne := (h'.custody fd' hne).trans (h.custody fd' hne)
  openFiles fd' hne := (h'.openFiles fd' hne).trans (h.openFiles fd' hne)
  word fd' hne := (h'.word fd' hne).trans (h.word fd' hne)
  records p hp hown :=
    (h'.records p (Nat.lt_of_lt_of_le hp h.fresh) hown).trans (h.records p hp hown)
  descriptors p hp hown k :=
    (h'.descriptors p (Nat.lt_of_lt_of_le hp h.fresh) hown k).trans (h.descriptors p hp hown k)
  fresh := Nat.le_trans h.fresh h'.fresh
  slot p hp := by
    obtain hmid | ⟨hge, hlt⟩ := h'.slot p hp
    · obtain hold | ⟨hge, hlt⟩ := h.slot p hmid
      · exact Or.inl hold
      · exact Or.inr ⟨hge, Nat.lt_of_lt_of_le hlt h'.fresh⟩
    · exact Or.inr ⟨Nat.le_trans h.fresh hge, hlt⟩
  queue hq := h'.queue (h.queue hq)
  named p hp := h'.named p (h.named p hp)
  backed hb := h'.backed (h.backed hb)
  kept hk := h'.kept (h.kept hk)
  slowSync := h'.slowSync.trans h.slowSync
  fault := h'.fault.trans h.fault

/-- A slot with another record sees the same memory. -/
theorem Touches.view (h : Touches s s' fd own) {fd' : Fin n} (hne : fd' ≠ fd)
    (hptr : ∀ p, s.openFiles fd' = some p → p < s.records.fresh ∧ own ≠ some p) :
    view s' fd' = view s fd' := by
  unfold Table.view
  rw [h.openFiles fd' hne]
  cases hq : s.openFiles fd' with
  | none => rfl
  | some p =>
    obtain ⟨hp, hown⟩ := hptr p hq
    have hcell : cellAt s' (some p) = cellAt s (some p) := h.records p hp hown
    have hopened : openedFor s' (some p) = openedFor s (some p) := by
      funext k
      simp only [openedFor, Option.any_some]
      rw [Bool.eq_iff_iff, beq_iff_eq, beq_iff_eq]
      exact h.descriptors p hp hown k
    rw [hcell, hopened]

/-- The own record of a slot, or one that is allocated in the step. -/
def Owns (s : FileTable n T) (fd : Fin n) (own : Option Nat) : Prop :=
  ∀ p, own = some p → s.openFiles fd = some p ∨ s.records.fresh ≤ p

theorem Owns.other (h : Owns s fd own) (hcoh : Coherent s job) {fd' : Fin n} (hne : fd' ≠ fd) {p : Nat}
    (hp : s.openFiles fd' = some p) : p < s.records.fresh ∧ own ≠ some p := by
  refine ⟨hcoh.given fd' p hp, fun hown => ?_⟩
  obtain hsame | hnew := h p hown
  · exact hne (hcoh.inj fd' fd p hp hsame)
  · exact absurd (hcoh.given fd' p hp) (Nat.not_lt.mpr hnew)

/-- The pointers after a step on the slot `fd`. -/
theorem Coherent.pointers (h : Coherent s job) (htouch : Touches s s' fd own) :
    (∀ fd₁ fd₂ p, s'.openFiles fd₁ = some p → s'.openFiles fd₂ = some p → fd₁ = fd₂) ∧
      ∀ fd' p, s'.openFiles fd' = some p → p < s'.records.fresh := by
  have hgiven : ∀ fd' p, s'.openFiles fd' = some p → p < s'.records.fresh := by
    intro fd' p hp
    by_cases hfd : fd' = fd
    · subst hfd
      obtain hold | ⟨-, hlt⟩ := htouch.slot p hp
      · exact Nat.lt_of_lt_of_le (h.given fd' p hold) htouch.fresh
      · exact hlt
    · rw [htouch.openFiles fd' hfd] at hp
      exact Nat.lt_of_lt_of_le (h.given fd' p hp) htouch.fresh
  -- A slot that is not touched does not share the pointer of `fd`.
  have hother : ∀ fd' p, fd' ≠ fd → s'.openFiles fd' = some p → s'.openFiles fd ≠ some p := by
    intro fd' p hfd hp hp'
    rw [htouch.openFiles fd' hfd] at hp
    obtain hold | ⟨hge, -⟩ := htouch.slot p hp'
    · exact hfd (h.inj fd' fd p hp hold)
    · exact absurd (h.given fd' p hp) (Nat.not_lt.mpr hge)
  refine ⟨fun fd₁ fd₂ p hp₁ hp₂ => ?_, hgiven⟩
  by_cases h₁ : fd₁ = fd
  · by_cases h₂ : fd₂ = fd
    · exact h₁.trans h₂.symm
    · subst h₁
      exact absurd hp₁ (hother fd₂ p h₂ hp₂)
  · by_cases h₂ : fd₂ = fd
    · subst h₂
      exact absurd hp₂ (hother fd₁ p h₁ hp₁)
    · rw [htouch.openFiles fd₁ h₁] at hp₁
      rw [htouch.openFiles fd₂ h₂] at hp₂
      exact h.inj fd₁ fd₂ p hp₁ hp₂

/-- After a step on the slot `fd` the invariant has to be shown there only.
The slot then has the task `q`: the old one, a new one or none. -/
theorem TableInv.local (h : TableInv s job) (htouch : Touches s s' fd own) (hown : Owns s fd own)
    {q : Option Nat} (hpcs : ∀ fd', fd' ≠ fd → pcAt s' fd' = pcAt s fd')
    (hheld : ∀ t fd', slot? (s'.foreground t) = some fd' → s'.custody fd' = .held t)
    (htasks : ∀ i, i < s.tasks.fresh → job fd ≠ some i → s'.tasks.cells i = s.tasks.cells i)
    (hfresh : s.tasks.fresh ≤ s'.tasks.fresh)
    (hq : ∀ i, q = some i → i < s'.tasks.fresh ∧ (job fd = some i ∨ s.tasks.fresh ≤ i))
    (hbusy : ∀ i task, s'.tasks.cells i = .live task → busy task = true →
      job fd = some i ∨ s.tasks.fresh ≤ i → q = some i)
    (hnamed : ∀ i task p, s'.tasks.cells i = .live task → notified? task = some p →
      job fd = some i ∨ s.tasks.fresh ≤ i → Named s' p)
    (hok : SlotOk fd s' q) : TableInv s' (Function.update job fd q) := by
  obtain ⟨hinj, hgiven⟩ := h.coherent.pointers htouch
  have hcoh := h.coherent
  -- The task of another slot is not the one of `fd`, before and after.
  have hother : ∀ fd' i, fd' ≠ fd → job fd' = some i → job fd ≠ some i ∧ q ≠ some i := by
    intro fd' i hfd hi
    have hne : job fd ≠ some i := fun hsame => hfd (hcoh.jobInj fd' fd i hi hsame)
    refine ⟨hne, fun hqi => ?_⟩
    obtain hsame | hnew := (hq i hqi).2
    · exact hne hsame
    · exact absurd (hcoh.jobGiven fd' i hi) (Nat.not_lt.mpr hnew)
  refine ⟨⟨htouch.queue hcoh.queue, hinj, hgiven, hheld, ?_, ?_, ?_, ?_,
    htouch.backed hcoh.backed, htouch.kept hcoh.kept, htouch.fault.trans hcoh.sound⟩, fun fd' => ?_⟩
  · intro fd₁ fd₂ i hi₁ hi₂
    by_cases h₁ : fd₁ = fd
    · by_cases h₂ : fd₂ = fd
      · exact h₁.trans h₂.symm
      · subst h₁
        rw [Function.update_self] at hi₁
        rw [Function.update_of_ne h₂] at hi₂
        exact absurd hi₁ (hother fd₂ i h₂ hi₂).2
    · rw [Function.update_of_ne h₁] at hi₁
      by_cases h₂ : fd₂ = fd
      · subst h₂
        rw [Function.update_self] at hi₂
        exact absurd hi₂ (hother fd₁ i h₁ hi₁).2
      · rw [Function.update_of_ne h₂] at hi₂
        exact hcoh.jobInj fd₁ fd₂ i hi₁ hi₂
  · intro fd' i hi
    by_cases hfd : fd' = fd
    · subst hfd
      rw [Function.update_self] at hi
      exact (hq i hi).1
    · rw [Function.update_of_ne hfd] at hi
      exact Nat.lt_of_lt_of_le (hcoh.jobGiven fd' i hi) hfresh
  · intro i task hi hb
    by_cases hown' : job fd = some i ∨ s.tasks.fresh ≤ i
    · exact ⟨fd, by rw [Function.update_self]; exact hbusy i task hi hb hown'⟩
    · obtain ⟨hne, hlt⟩ := not_or.mp hown'
      rw [htasks i (Nat.not_le.mp hlt) hne] at hi
      obtain ⟨fd', hfd'⟩ := hcoh.tasks i task hi hb
      have hfd : fd' ≠ fd := fun heq => hne (heq ▸ hfd')
      exact ⟨fd', by rw [Function.update_of_ne hfd]; exact hfd'⟩
  · intro i task p hi hp
    by_cases hown' : job fd = some i ∨ s.tasks.fresh ≤ i
    · exact hnamed i task p hi hp hown'
    · obtain ⟨hne, hlt⟩ := not_or.mp hown'
      rw [htasks i (Nat.not_le.mp hlt) hne] at hi
      exact htouch.named p (hcoh.named i task p hi hp)
  · by_cases hfd : fd' = fd
    · subst hfd
      rw [Function.update_self]
      exact hok
    · have hscan : scanAt s' fd' = scanAt s fd' := by
        unfold scanAt
        rw [htouch.slowSync]
      have hview : view s' fd' = view s fd' := htouch.view hfd fun p hp => hown.other hcoh hfd hp
      have htask : taskAt s' (job fd') = taskAt s (job fd') := by
        cases hi : job fd' with
        | none => rfl
        | some i =>
          simp only [taskAt, Option.bind_some]
          rw [htasks i (hcoh.jobGiven fd' i hi) (hother fd' i hfd hi).1]
      obtain ⟨hcust, hguard⟩ := h.slots fd'
      rw [Function.update_of_ne hfd]
      constructor
      · rw [hview, htask, hpcs fd' hfd, htouch.custody fd' hfd]
        exact hcust
      · rw [hview, htask, hpcs fd' hfd, htouch.custody fd' hfd, htouch.word fd' hfd, hscan]
        exact hguard

/-- The same for a step that leaves the tasks as they are. -/
theorem TableInv.local_of_tasks (h : TableInv s job) (htouch : Touches s s' fd own) (hown : Owns s fd own)
    (hpcs : ∀ fd', fd' ≠ fd → pcAt s' fd' = pcAt s fd')
    (hheld : ∀ t fd', slot? (s'.foreground t) = some fd' → s'.custody fd' = .held t)
    (htasks : s'.tasks = s.tasks) (hok : SlotOk fd s' (job fd)) : TableInv s' job := by
  have hcoh := h.coherent
  have hsame : Function.update job fd (job fd) = job := Function.update_eq_self fd job
  rw [← hsame]
  refine h.local htouch hown hpcs hheld (fun i _ _ => by rw [htasks]) (Nat.le_of_eq (by rw [htasks]))
    (fun i hi => ⟨by rw [htasks]; exact hcoh.jobGiven fd i hi, Or.inl hi⟩) (fun i task hi _ hor => ?_)
    (fun i task p hi hp _ => ?_) hok
  · rw [htasks] at hi
    obtain hi' | hge := hor
    · exact hi'
    · exact absurd (Objects.lt_fresh hi (by simp)) (Nat.not_lt.mpr hge)
  · rw [htasks] at hi
    exact htouch.named p (hcoh.named i task p hi hp)

end Efio.Proofs.Evio.Table
