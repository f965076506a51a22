import Efio.Proofs.Evio.SlotPieces

/-!
# `Efio.Proofs.Evio.SlotCalls`: a thread inside a call keeps the slots in order

A thread that goes on keeps its slot or leaves it (`TableInv.moves`), and may
leave a task to the pool (`TableInv.enqueues`). For each function the step
from each of its places is looked at once.
-/

set_option autoImplicit false

namespace Efio.Proofs.Evio.Table

open Efio.Lib
open Efio.Evio
open Efio.Evio.FileTable

variable {n : Nat} {T : Type} {fd : Fin n} {v : SlotView n} {s s₁ s' : FileTable n T}
  {job job' : Fin n → Option Nat} {own : Option Nat} {p k : Nat} {r r' : FileRecord n}
  {mine : Bool} {t : T} {pc : TablePc n} {task : DiskTask n}

/-! ### Threads -/

/-- Fields that no part of the invariant looks at. -/
theorem TableInv.setReturned (h : TableInv s job) (f : T → Int × Option Errno) :
    TableInv { s with returned := f } job where
  coherent := { h.coherent with }
  slots fd := ⟨(h.slots fd).custodian, (h.slots fd).guarded⟩

/-- The slot of a thread inside a call. -/
theorem TableInv.at (h : TableInv s job) (hpc : s.foreground t = pc) (hslot : slot? pc = some fd) :
    s.custody fd = .held t ∧ PcOk fd (view s fd) (taskAt s (job fd)) pc ∧
      Guarded (view s fd) (s.handleToFileAction fd) (scanAt s fd) (pcLocks pc) := by
  subst hpc
  have hheld := h.coherent.held t fd hslot
  have hpc : pcAt s fd = s.foreground t := by
    unfold pcAt
    simp only [hheld, hslot, if_true]
  obtain ⟨hcust, hguard⟩ := h.slots fd
  rw [hheld, hpc] at hcust hguard
  exact ⟨hheld, hcust, hguard⟩

/-- The slot of a thread between two calls. -/
theorem TableInv.between (h : TableInv s job) (hheld : s.custody fd = .held t)
    (hidle : s.foreground t = .idle) :
    PcOk fd (view s fd) (taskAt s (job fd)) .idle ∧
      Guarded (view s fd) (s.handleToFileAction fd) (scanAt s fd) false := by
  have hpc : pcAt s fd = .idle := by
    unfold pcAt
    simp only [hheld, hidle, ite_self]
  obtain ⟨hcust, hguard⟩ := h.slots fd
  rw [hheld, hpc] at hcust hguard
  exact ⟨hcust, hguard⟩

section Threads

variable [DecidableEq T]

/-- Another slot does not see where the thread goes. -/
theorem pcAt_goto (htouch : Touches s s₁ fd own) (hfg : s₁.foreground = s.foreground)
    (hpos : slot? (s.foreground t) = some fd ∨ s.foreground t = .idle)
    (hpc : slot? pc = some fd ∨ pc = .idle) {fd' : Fin n} (hne : fd' ≠ fd) :
    pcAt (s₁.goto t pc) fd' = pcAt s fd' := by
  have hcust : (s₁.goto t pc).custody fd' = s.custody fd' := htouch.custody fd' hne
  unfold pcAt
  rw [hcust]
  cases s.custody fd' with
  | queued | closing | lost => rfl
  | held u =>
    by_cases hu : u = t
    · subst hu
      have hnew : slot? pc ≠ some fd' := by
        rintro hsome
        obtain hpc | rfl := hpc
        · exact hne (Option.some.inj (hsome.symm.trans hpc))
        · cases hsome
      have hold : slot? (s.foreground u) ≠ some fd' := by
        intro hsome
        obtain hpos | hidle := hpos
        · exact hne (Option.some.inj (hsome.symm.trans hpos))
        · rw [hidle] at hsome
          cases hsome
      simp only [goto, Function.update_self, if_neg hnew, if_neg hold]
    · simp only [goto, Function.update_of_ne hu, hfg]

/-- The thread `t` has made a step on its slot and goes to `pc`. -/
theorem TableInv.moves (h : TableInv s job) (hheld : s.custody fd = .held t)
    (hpos : slot? (s.foreground t) = some fd ∨ s.foreground t = .idle) (hgoes : Goes s s₁ fd mine)
    (hpc : slot? pc = some fd ∧ s₁.custody fd = .held t ∨ pc = .idle)
    (hcust : ∀ u, s₁.custody fd = .held u → u = t)
    (hok : CustodianOk fd (view s₁ fd) (taskAt s (job fd)) pc (s₁.custody fd))
    (hmine : locks (taskAt s (job fd)) pc (s₁.custody fd) = mine) : TableInv (s₁.goto t pc) job := by
  obtain ⟨⟨own, hown, htouch, hfg, htasks⟩, hguard⟩ := hgoes
  have hcoh := h.coherent
  have hgoto : Touches s (s₁.goto t pc) fd own :=
    htouch.trans { Touches.refl s₁ fd own with }
  have hplace : pcAt (s₁.goto t pc) fd = pc := by
    unfold pcAt
    cases hc : s₁.custody fd with
    | held u =>
      obtain rfl := hcust u hc
      simp only [goto, hc, Function.update_self]
      obtain ⟨hsome, -⟩ | rfl := hpc
      · exact if_pos hsome
      · exact ite_self _
    | queued | closing | lost =>
      obtain ⟨-, hheld'⟩ | rfl := hpc
      · cases hc.symm.trans hheld'
      · simp only [goto, hc]
  refine h.local_of_tasks hgoto hown
    (fun fd' hne => pcAt_goto htouch hfg hpos (hpc.imp And.left id) hne) ?_ htasks ?_
  · intro u fd' hu
    by_cases hut : u = t
    · subst hut
      simp only [goto, Function.update_self] at hu
      obtain ⟨hsome, hheld'⟩ | rfl := hpc
      · cases hsome.symm.trans hu
        exact hheld'
      · cases hu
    · simp only [goto, Function.update_of_ne hut, hfg] at hu
      have hother := hcoh.held u fd' hu
      have hne : fd' ≠ fd := by
        rintro rfl
        exact hut (Custody.held.inj (hother.symm.trans hheld))
      exact (hgoto.custody fd' hne).trans hother
  · have htask : taskAt (s₁.goto t pc) (job fd) = taskAt s (job fd) := by
      change taskAt s₁ (job fd) = _
      unfold taskAt
      rw [htasks]
    constructor
    · rw [hplace, htask]
      exact hok
    · rw [hplace, htask]
      exact hmine ▸ hguard

/-- The thread at `pc` goes on on its slot. -/
theorem TableInv.goes (h : TableInv s job) (pc' : TablePc n) (hpc : s.foreground t = pc)
    (hslot : slot? pc = some fd) (hgoes : Goes s s₁ fd (pcLocks pc')) (hcust : s₁.custody fd = .held t)
    (hslot' : slot? pc' = some fd) (hok : PcOk fd (view s₁ fd) (taskAt s (job fd)) pc') :
    TableInv (s₁.goto t pc') job := by
  subst hpc
  have hheld := h.coherent.held t fd hslot
  refine h.moves hheld (Or.inl hslot) hgoes (Or.inl ⟨hslot', hcust⟩) (fun u hu => ?_) ?_ ?_
  · exact (Custody.held.inj (hcust.symm.trans hu)).symm
  · rw [hcust]
    exact hok
  · rw [hcust]
    rfl

/-- The call returns, and the thread keeps its slot. -/
theorem TableInv.returns (h : TableInv s job) (hpc : s.foreground t = pc) (hslot : slot? pc = some fd)
    (hgoes : Goes s s₁ fd false) (hcust : s₁.custody fd = .held t)
    (hok : PcOk fd (view s₁ fd) (taskAt s (job fd)) .idle) (ret : Int) (err : Option Errno) :
    TableInv (s₁.finish t ret err) job := by
  subst hpc
  have hheld := h.coherent.held t fd hslot
  refine TableInv.setReturned
    (h.moves hheld (Or.inl hslot) hgoes (Or.inr rfl) (fun u hu => ?_) ?_ ?_) _
  · exact (Custody.held.inj (hcust.symm.trans hu)).symm
  · rw [hcust]
    exact hok
  · rw [hcust]
    rfl

/-- The call returns, and the slot is unused again, or lost. -/
theorem TableInv.leaves (h : TableInv s job) (hpc : s.foreground t = pc) (hslot : slot? pc = some fd)
    (hgoes : Goes s s₁ fd false) (hnone : taskAt s (job fd) = none) (hclosed : Closed s₁ fd)
    (ret : Int) (err : Option Errno) : TableInv (s₁.finish t ret err) job := by
  subst hpc
  have hheld := h.coherent.held t fd hslot
  refine TableInv.setReturned (h.moves hheld (Or.inl hslot) hgoes (Or.inr rfl) (fun u hu => ?_) ?_ ?_) _
  · obtain ⟨hqueued, -⟩ | ⟨hlost, -⟩ := hclosed
    · cases hu.symm.trans hqueued
    · cases hu.symm.trans hlost
  · obtain ⟨hqueued, hptr⟩ | ⟨hlost, hrec⟩ := hclosed
    · rw [hqueued]
      exact ⟨hnone, hptr⟩
    · rw [hlost]
      exact ⟨hnone, hrec⟩
  · obtain ⟨hqueued, -⟩ | ⟨hlost, -⟩ := hclosed
    · rw [hqueued]
      rfl
    · rw [hlost]
      rfl

/-- The thread gives the pool a task, and keeps its slot or leaves it to the
task. -/
theorem TableInv.enqueues (h : TableInv s job) (task : DiskTask n) (hpc : s.foreground t = pc) (hslot : slot? pc = some fd)
    (hnone : taskAt s (job fd) = none)
    (hguard : Guarded (view s fd) (s.handleToFileAction fd) (scanAt s fd) false) {c : Custody T}
    (hc : c = .held t ∨ c = .closing) (hlocks : taskLocks task = false) (hstart : notified? task = none)
    (hok : CustodianOk fd (view s fd) (some task) .idle c) (ret : Int) (err : Option Errno) :
    TableInv (((s.enqueueTask task).setCustody fd c).finish t ret err)
      (Function.update job fd (some s.tasks.fresh)) := by
  subst hpc
  have hheld := h.coherent.held t fd hslot
  have hqueue : QueueOk s → QueueOk ((s.enqueueTask task).setCustody fd c) := by
    rintro ⟨hnodup, hmem⟩
    refine ⟨hnodup, fun fd' => ?_⟩
    by_cases hne : fd' = fd
    · subst hne
      have hleft : fd' ∉ s.fdQueue := fun hin => by cases ((hmem fd').mp hin).symm.trans hheld
      obtain rfl | rfl := hc <;> simp [setCustody, enqueueTask, hleft]
    · simp only [setCustody, Function.update_of_ne hne]
      exact hmem fd'
  have htouch : Touches s ((s.enqueueTask task).setCustody fd c) fd none :=
    { Touches.refl s fd none with
      custody := fun _ hne => Function.update_of_ne hne _ _
      queue := hqueue }
  have hcust : ((s.enqueueTask task).setCustody fd c).custody fd = c := Function.update_self _ _ _
  have hgoto : Touches s (((s.enqueueTask task).setCustody fd c).goto t .idle) fd none :=
    htouch.trans { Touches.refl _ fd none with }
  -- The old task is gone.
  have hnew : ∀ i task', (s.tasks.malloc (.live task)).cells i = .live task' →
      job fd = some i ∨ s.tasks.fresh ≤ i → i = s.tasks.fresh ∧ task' = task := by
    intro i task' hi hor
    by_cases hi' : i = s.tasks.fresh
    · subst hi'
      exact ⟨rfl, Cell.live.inj (hi.symm.trans (Objects.malloc_self _))⟩
    · have hold : s.tasks.cells i = .live task' := (Objects.malloc_of_ne hi' _).symm.trans hi
      obtain hjob | hge := hor
      · simp [taskAt, hjob, hold] at hnone
      · cases (s.tasks.unused i hge).symm.trans hold
  refine TableInv.setReturned (s := ((s.enqueueTask task).setCustody fd c).goto t .idle)
    (h.local hgoto Owns.none
      (fun fd' hne => pcAt_goto htouch rfl (Or.inl hslot) (Or.inr rfl) hne) ?_ ?_ ?_ ?_ ?_ ?_ ?_) _
  · intro u fd' hu
    by_cases hut : u = t
    · subst hut
      simp only [goto, Function.update_self] at hu
      cases hu
    · simp only [goto, Function.update_of_ne hut] at hu
      have hother := h.coherent.held u fd' hu
      have hne : fd' ≠ fd := by
        rintro rfl
        exact hut (Custody.held.inj (hother.symm.trans hheld))
      exact (htouch.custody fd' hne).trans hother
  · intro i hi _
    exact Objects.malloc_of_ne (Nat.ne_of_lt hi) _
  · exact Nat.le_succ _
  · rintro i hi
    cases hi
    exact ⟨Nat.lt_succ_self _, Or.inr (Nat.le_refl _)⟩
  · intro i task' hi hbusy' hor
    exact congrArg some (hnew i task' hi hor).1.symm
  · intro i task' p hi hp hor
    cases hstart.symm.trans ((hnew i task' hi hor).2 ▸ hp)
  · have htask : taskAt (((s.enqueueTask task).setCustody fd c).goto t .idle) (some s.tasks.fresh)
        = some task := by
      simp [taskAt, goto, setCustody, enqueueTask]
    have hplace : pcAt (((s.enqueueTask task).setCustody fd c).goto t .idle) fd = .idle := by
      unfold pcAt
      simp only [goto, hcust]
      obtain rfl | rfl := hc
      · simp only [Function.update_self, ite_self]
      · rfl
    have hcust' : (((s.enqueueTask task).setCustody fd c).goto t .idle).custody fd = c := hcust
    constructor
    · rw [htask, hplace, hcust']
      exact hok
    · rw [htask, hplace, hcust']
      have hmine : locks (some task) .idle c = false := by
        obtain rfl | rfl := hc
        · rfl
        · simp [locks, hlocks]
      rw [hmine]
      exact hguard

/-! ### `ef_open` -/

/-- The step does not fail, and keeps the invariant. -/
def Fine (x : Except TableFault (FileTable n T)) : Prop := ∃ s' job', x = .ok s' ∧ TableInv s' job'

theorem openLock_fine {oflag : ReadFlags} (h : TableInv s job) (hpc : s.foreground t = .openLock fd oflag) :
    Fine (s.efOpenStep t (.openLock fd oflag)) := by
  obtain ⟨hheld, hok, hguard⟩ := h.at hpc rfl
  obtain hfree | htaken := hguard.any_locks
  · refine ⟨_, job, ?_, h.goes (.openPublish fd oflag) hpc rfl (.acquire hguard hfree) hheld rfl
      hok⟩
    simp only [efOpenStep, lockHandle_free hfree, if_true]
    rfl
  · refine ⟨_, job, ?_, h.goes (.openLock fd oflag) hpc rfl (.stay hguard) hheld rfl hok⟩
    simp only [efOpenStep, lockHandle_taken htaken, Bool.false_eq_true, if_false]
    rfl

theorem openPublish_fine {oflag : ReadFlags} (h : TableInv s job)
    (hpc : s.foreground t = .openPublish fd oflag) : Fine (s.efOpenStep t (.openPublish fd oflag)) := by
  obtain ⟨hheld, ⟨hnone, hptr⟩, hguard⟩ := h.at hpc rfl
  refine ⟨_, job, rfl, h.goes (.openUnlock fd s.records.fresh oflag) hpc rfl
    ⟨⟨none, .none, .publish hptr⟩, hguard.owned _⟩ hheld rfl ⟨hnone, fun k => ?_, ?_, ?_⟩⟩
  · -- No descriptor is open for a record that is not allocated.
    refine Bool.eq_false_iff.mpr fun hopen => ?_
    have hlive : s.descriptors.cells k = .live s.records.fresh :=
      (opened_iff (s := { s with
        records := s.records.malloc .raw
        openFiles := Function.update s.openFiles fd (some s.records.fresh) })
        (Function.update_self fd _ s.openFiles)).mp hopen
    obtain ⟨fd', hfd'⟩ := h.coherent.backed k _ hlive
    exact Nat.lt_irrefl _ (h.coherent.given fd' _ hfd')
  · exact Function.update_self fd _ s.openFiles
  · simp [view, cellAt]

theorem openUnlock_fine {oflag : ReadFlags} (h : TableInv s job)
    (hpc : s.foreground t = .openUnlock fd p oflag) : Fine (s.efOpenStep t (.openUnlock fd p oflag)) := by
  obtain ⟨hheld, ⟨hnone, hshut, hptr, hraw⟩, hguard⟩ := h.at hpc rfl
  refine ⟨_, job, ?_, h.goes (.openInit fd p oflag) hpc rfl
    (.release hguard fun _ => by simp [hraw]) hheld rfl ⟨hnone, hshut, hptr, hraw⟩⟩
  simp only [efOpenStep, unlockHandle_eq hguard.word_of_mine]
  rfl

theorem openInit_fine {oflag : ReadFlags} (h : TableInv s job)
    (hpc : s.foreground t = .openInit fd p oflag) : Fine (s.efOpenStep t (.openInit fd p oflag)) := by
  obtain ⟨hheld, ⟨hnone, hshut, hptr, hraw⟩, hguard⟩ := h.at hpc rfl
  have hcell := cells_of_view hptr hraw
  refine ⟨_, job, ?_, h.goes (.openAction fd p oflag) hpc rfl
    (.setLive hptr (by simp [hcell]) hguard fileInit (Or.inl hcell)) hheld rfl
    ⟨hnone, hshut, hptr, fileInit, ?_⟩⟩
  · simp only [efOpenStep, hcell]
    rfl
  · exact congrArg SlotView.cell (view_setCell hptr (by simp [hcell]) _)

theorem openAction_fine {oflag : ReadFlags} (h : TableInv s job)
    (hpc : s.foreground t = .openAction fd p oflag) : Fine (s.efOpenStep t (.openAction fd p oflag)) := by
  obtain ⟨hheld, ⟨hnone, hshut, hptr, r, hlive⟩, hguard⟩ := h.at hpc rfl
  have hcell := cells_of_view hptr hlive
  have hderef : s.derefRecord p = .ok r := by
    unfold FileTable.derefRecord
    rw [hcell]
  refine ⟨_, job, ?_, h.goes (.openAttempt fd p) hpc rfl
    ((Goes.setLive hptr (by simp [hcell]) hguard { r with
      efFd := some fd
      openInp := oflag
      action := .live s.nextAction (eioCmdInit .operOpen) } (Or.inr (by simp))).setNextAction (s.nextAction + 1))
    hheld rfl ⟨hnone, hshut, _,
      ⟨hptr, congrArg SlotView.cell (view_setCell hptr (by simp [hcell]) _), rfl⟩, s.nextAction, eioCmdInit .operOpen, rfl, rfl, by simp [eioCmdInit]⟩⟩
  simp only [efOpenStep, hderef, ok_bind]
  rfl

theorem openAttempt_fine (h : TableInv s job) (hpc : s.foreground t = .openAttempt fd p) :
    Fine (s.efOpenStep t (.openAttempt fd p)) := by
  obtain ⟨hheld, ⟨hnone, hshut, r, hrec, hpending⟩, hguard⟩ := h.at hpc rfl
  refine ⟨_, job, ?_, h.goes (.openEnqueue fd p) hpc rfl
    (.setRecord hrec hguard { r with status := .fileOpenAttempted } rfl) hheld rfl
    ⟨hnone, hshut, ?_⟩⟩
  · simp only [efOpenStep, hrec.derefRecord, ok_bind]
    rfl
  · rw [hrec.view_setRecord]
    exact ⟨_, hrec.set rfl, rfl, hpending⟩

theorem openEnqueue_fine (h : TableInv s job) (hpc : s.foreground t = .openEnqueue fd p) :
    Fine (s.efOpenStep t (.openEnqueue fd p)) := by
  obtain ⟨hheld, ⟨hnone, hshut, r, hrec, hstatus, hpending⟩, hguard⟩ := h.at hpc rfl
  have hinv := h.enqueues (.efFileOpen p .start) hpc rfl hnone hguard (Or.inl rfl) rfl rfl
    ⟨p, r, hrec, rfl, hstatus, hpending, hshut⟩ fd none
  rw [setCustody_self (s := s.enqueueTask (.efFileOpen p .start)) hheld] at hinv
  exact ⟨_, _, rfl, hinv⟩

/-! ### `ef_open_status` -/

omit [DecidableEq T] in
/-- Once `_status` is set, only a read can be under way. -/
theorem Working.cases {task : Option (DiskTask n)} (h : Working v p r task)
    (hstatus : r.status ≠ .fileOpenAttempted) :
    task = none ∧ Settled v r ∨ Ready v r ∧ Pending .operRead r := by
  cases task with
  | none => exact Or.inl ⟨rfl, h⟩
  | some task =>
    cases task with
    | efFileOpen p' pc =>
      obtain ⟨-, hopening⟩ := h
      cases pc <;> first | exact absurd hopening.1 hstatus | exact hopening.elim
    | efFileRead p' pc =>
      obtain ⟨-, hreading⟩ := h
      cases pc <;> first | exact Or.inr hreading | exact hreading.elim
    | efFileClose p' pc => exact h.elim

/-- The status is asked for, and nothing changes. -/
theorem TableInv.asks (h : TableInv s job) (hpc : s.foreground t = pc) (hslot : slot? pc = some fd)
    (hguard : Guarded (view s fd) (s.handleToFileAction fd) (scanAt s fd) false)
    (hheld : s.custody fd = .held t) (hrec : HasRecord fd (view s fd) p r)
    (hwork : Working (view s fd) p r (taskAt s (job fd))) (ret : Int) (err : Option Errno) :
    TableInv (s.finish t ret err) job :=
  h.returns hpc hslot (.stay hguard) hheld ⟨p, r, hrec, hwork⟩ ret err

theorem statusTest_fine (h : TableInv s job) (hpc : s.foreground t = .statusTest fd) :
    Fine (s.efOpenStatusStep t (.statusTest fd)) := by
  obtain ⟨hheld, ⟨p, r, hrec, hwork, hstatus⟩, hguard⟩ := h.at hpc rfl
  obtain ⟨hnone, hsettled⟩ | ⟨hready, id, a, hact, hcmd, -⟩ := hwork.cases hstatus
  · cases hsettled with
    | plain hready hact =>
      refine ⟨_, job, ?_, h.asks hpc rfl hguard hheld hrec hwork fd none⟩
      simp only [efOpenStatusStep, hrec.derefSlot, testAction_null hact, ok_bind, hready.1, if_true]
      rfl
    | opened hready hact =>
      obtain ⟨id, a, hact, hcmd, hcomplete, hret⟩ := hact
      by_cases hspecial : a.returnValue = -100
      · refine ⟨_, job, ?_, h.asks hpc rfl hguard hheld hrec hwork (-1) (some .eagain)⟩
        simp only [efOpenStatusStep, hrec.derefSlot, testAction_live hact, ok_bind, hcmd, hcomplete, if_neg hret,
          if_pos hspecial, if_true, ne_eq, not_true_eq_false, if_false]
        rfl
      · refine ⟨_, job, ?_, h.goes (.statusFree fd .cleanup) hpc rfl (.stay hguard) hheld rfl
          ⟨hnone, p, r, hrec, hready, id, a, hact⟩⟩
        simp only [efOpenStatusStep, hrec.derefSlot, testAction_live hact, ok_bind, hcmd, hcomplete, if_neg hret,
          if_neg hspecial, if_true, ne_eq, not_true_eq_false, if_false]
        rfl
    | read hready hact =>
      obtain ⟨id, a, hact, hcmd, -⟩ := hact
      refine ⟨_, job, ?_, h.asks hpc rfl hguard hheld hrec hwork fd none⟩
      simp only [efOpenStatusStep, hrec.derefSlot, testAction_live hact, ok_bind, hcmd, hready.1, reduceCtorEq,
        if_false, if_true]
      rfl
    | failed hfailed hshut hact =>
      obtain ⟨id, a, hact, hcmd, hcomplete, hret⟩ := hact
      refine ⟨_, job, ?_, h.goes (.statusCleanup fd a.err .lockHandle) hpc rfl (.stay hguard) hheld rfl
        ⟨hnone, hshut, p, r, hrec, id, a, hact⟩⟩
      simp only [efOpenStatusStep, hrec.derefSlot, testAction_live hact, ok_bind, hcmd, hcomplete, hret, if_true,
        ne_eq, not_true_eq_false, if_false]
      rfl
  · refine ⟨_, job, ?_, h.asks hpc rfl hguard hheld hrec hwork fd none⟩
    simp only [efOpenStatusStep, hrec.derefSlot, testAction_live hact, ok_bind, hcmd, hready.1, reduceCtorEq,
      if_false, if_true]
    rfl

omit [DecidableEq T] in
/-- `free_file_action` of the thread with an open file. -/
theorem dropStep_ready {d : DropPc} (hrec : HasRecord fd (view s fd) p r) (hready : Ready (view s fd) r)
    (hdrop : Dropping r d)
    (hguard : Guarded (view s fd) (s.handleToFileAction fd) (scanAt s fd) mine) :
    ∃ s' r' next, s.dropStep p r d = .ok (s', next) ∧ Goes s s' fd mine ∧
      s'.custody fd = s.custody fd ∧ HasRecord fd (view s' fd) p r' ∧ Ready (view s' fd) r' ∧
      match next with
      | some d' => Dropping r' d'
      | none => r'.action = .null := by
  obtain ⟨act, next, hstep, hnext⟩ := dropStep_ok (s := s) (p := p) hdrop
  refine ⟨_, { r with action := act }, next, hstep, .setRecord hrec hguard _ rfl, rfl, ?_, ?_, ?_⟩
  · rw [hrec.view_setRecord]
    exact hrec.set rfl
  · rw [hrec.view_setRecord]
    exact hready
  · cases next <;> exact hnext

theorem statusFree_fine {d : DropPc} (h : TableInv s job) (hpc : s.foreground t = .statusFree fd d) :
    Fine (s.efOpenStatusStep t (.statusFree fd d)) := by
  obtain ⟨hheld, ⟨hnone, p, r, hrec, hready, hdrop⟩, hguard⟩ := h.at hpc rfl
  obtain ⟨s', r', next, hstep, hgoes, hcust, hrec', hready', hnext⟩ :=
    dropStep_ready hrec hready hdrop hguard
  cases next with
  | some d' =>
    refine ⟨_, job, ?_, h.goes (.statusFree fd d') hpc rfl hgoes (hcust.trans hheld) rfl
      ⟨hnone, p, r', hrec', hready', hnext⟩⟩
    simp only [efOpenStatusStep, hrec.derefSlot, hstep, ok_bind]
    rfl
  | none =>
    refine ⟨_, job, ?_, h.returns hpc rfl hgoes (hcust.trans hheld) ⟨p, r', hrec', ?_⟩ fd none⟩
    · simp only [efOpenStatusStep, hrec.derefSlot, hstep, ok_bind]
      rfl
    · rw [hnone]
      exact Settled.plain hready' hnext

theorem statusCleanup_fine {err : Option Errno} {c : CleanupPc} (h : TableInv s job)
    (hpc : s.foreground t = .statusCleanup fd err c) :
    Fine (s.efOpenStatusStep t (.statusCleanup fd err c)) := by
  obtain ⟨hheld, ⟨hnone, hclean⟩, hguard⟩ := h.at hpc rfl
  obtain ⟨s', next, hstep, hgoes, hnext⟩ := cleanupStep_ok hclean hguard (by simp [hheld])
  cases next with
  | some c' =>
    refine ⟨_, job, ?_, h.goes (.statusCleanup fd err c') hpc rfl hgoes (hnext.1.trans hheld) rfl
      ⟨hnone, hnext.2⟩⟩
    simp only [efOpenStatusStep, hstep, ok_bind]
    rfl
  | none =>
    refine ⟨_, job, ?_, h.leaves hpc rfl hgoes hnone (Or.inl hnext) (-1) err⟩
    simp only [efOpenStatusStep, hstep, ok_bind]
    rfl

/-! ### `ef_read` -/

theorem readDispatch_fine {yes : Bool} {bytes : Nat} (h : TableInv s job)
    (hpc : s.foreground t = .readDispatch fd) : Fine (s.efReadStep yes bytes t (.readDispatch fd)) := by
  obtain ⟨hheld, ⟨p, r, hrec, hwork, hstatus⟩, hguard⟩ := h.at hpc rfl
  have hset : r.status ≠ .fileOpenAttempted := by simp [hstatus]
  obtain ⟨hnone, hsettled⟩ | ⟨hready, id, a, hact, hcmd, hpending⟩ := hwork.cases hset
  · cases hsettled with
    | plain hready hact =>
      refine ⟨_, job, ?_, h.goes (.readDrop fd) hpc rfl (.stay hguard) hheld rfl
        ⟨hnone, p, r, hrec, hready, .plain hready hact⟩⟩
      simp only [efReadStep, hrec.derefSlot, testAction_null hact, ok_bind]
      rfl
    | opened hready hact =>
      have hsettled := Settled.opened hready hact
      obtain ⟨id, a, hact, hcmd, hcomplete, -⟩ := hact
      refine ⟨_, job, ?_, h.goes (.readDrop fd) hpc rfl (.stay hguard) hheld rfl
        ⟨hnone, p, r, hrec, hready, hsettled⟩⟩
      simp only [efReadStep, hrec.derefSlot, testAction_live hact, ok_bind, hcmd, hcomplete, reduceCtorEq,
        ne_eq, not_true_eq_false, if_false]
      rfl
    | read hready hact =>
      obtain ⟨id, a, hact, hcmd, hcomplete, -⟩ := hact
      have hfree : ∀ k, PcOk fd (view s fd) (taskAt s (job fd)) (.readFree fd .cleanup k) :=
        fun _ => ⟨hnone, p, r, hrec, hready, id, a, hact⟩
      by_cases hspecial : a.returnValue = -100
      · refine ⟨_, job, ?_, h.asks hpc rfl hguard hheld hrec hwork (-1) (some .eagain)⟩
        simp only [efReadStep, hrec.derefSlot, testAction_live hact, ok_bind, hcmd, hspecial, or_true, if_true]
        rfl
      · have hcheck : ¬ (a.actionStatus ≠ .actionComplete ∨ a.returnValue = -100) := by
          simp [hcomplete, hspecial]
        by_cases hfailed : a.returnValue = -1
        · refine ⟨_, job, ?_, h.goes (.readFree fd .cleanup (.done (-1) a.err)) hpc rfl (.stay hguard) hheld
            rfl (hfree _)⟩
          simp only [efReadStep, hrec.derefSlot, testAction_live hact, ok_bind, hcmd, if_true, if_neg hcheck,
            if_pos hfailed]
          rfl
        · by_cases heof : a.returnValue = 0
          · refine ⟨_, job, ?_, h.goes (.readFree fd .cleanup (.done 0 none)) hpc rfl (.stay hguard) hheld rfl
              (hfree _)⟩
            simp only [efReadStep, hrec.derefSlot, testAction_live hact, ok_bind, hcmd, if_true, if_neg hcheck,
              if_neg hfailed, if_pos heof]
            rfl
          · refine ⟨_, job, ?_, h.goes (.readFree fd .cleanup .drop) hpc rfl (.stay hguard) hheld rfl
              (hfree _)⟩
            simp only [efReadStep, hrec.derefSlot, testAction_live hact, ok_bind, hcmd, if_true, if_neg hcheck,
              if_neg hfailed, if_neg heof]
            rfl
    | failed hfailed => cases hfailed.symm.trans hstatus
  · refine ⟨_, job, ?_, h.asks hpc rfl hguard hheld hrec hwork (-1) (some .eagain)⟩
    simp only [efReadStep, hrec.derefSlot, testAction_live hact, ok_bind, hcmd, hpending, ne_eq,
      not_false_eq_true, true_or, if_true]
    rfl

theorem readFree_fine {yes : Bool} {bytes : Nat} {d : DropPc} {k : AfterReadFree} (h : TableInv s job)
    (hpc : s.foreground t = .readFree fd d k) : Fine (s.efReadStep yes bytes t (.readFree fd d k)) := by
  obtain ⟨hheld, ⟨hnone, p, r, hrec, hready, hdrop⟩, hguard⟩ := h.at hpc rfl
  obtain ⟨s', r', next, hstep, hgoes, hcust, hrec', hready', hnext⟩ :=
    dropStep_ready hrec hready hdrop hguard
  have hheld' := hcust.trans hheld
  cases next with
  | some d' =>
    refine ⟨_, job, ?_, h.goes (.readFree fd d' k) hpc rfl hgoes hheld' rfl
      ⟨hnone, p, r', hrec', hready', hnext⟩⟩
    simp only [efReadStep, hrec.derefSlot, hstep, ok_bind]
    rfl
  | none =>
    have hsettled : Settled (view s' fd) r' := .plain hready' hnext
    cases k with
    | done ret err =>
      refine ⟨_, job, ?_, h.returns hpc rfl hgoes hheld' ⟨p, r', hrec', ?_⟩ ret err⟩
      · simp only [efReadStep, hrec.derefSlot, hstep, ok_bind]
        rfl
      · rw [hnone]
        exact hsettled
    | drop =>
      refine ⟨_, job, ?_, h.goes (.readDrop fd) hpc rfl hgoes hheld' rfl
        ⟨hnone, p, r', hrec', hready', hsettled⟩⟩
      simp only [efReadStep, hrec.derefSlot, hstep, ok_bind]
      rfl
    | buffer =>
      refine ⟨_, job, ?_, h.goes (.readBuffer fd) hpc rfl hgoes hheld' rfl
        ⟨hnone, p, r', hrec', hready', hnext⟩⟩
      simp only [efReadStep, hrec.derefSlot, hstep, ok_bind]
      rfl

omit [DecidableEq T] in
/-- An open file without a task has a complete action or none. -/
theorem Settled.action (h : Settled v r) (hready : Ready v r) :
    r.action = .null ∨ ∃ id a, r.action = .live id a ∧ a.actionStatus = .actionComplete := by
  cases h with
  | plain _ hact => exact Or.inl hact
  | opened _ hact =>
    obtain ⟨id, a, hact, -, hcomplete, -⟩ := hact
    exact Or.inr ⟨id, a, hact, hcomplete⟩
  | read _ hact =>
    obtain ⟨id, a, hact, -, hcomplete, -⟩ := hact
    exact Or.inr ⟨id, a, hact, hcomplete⟩
  | failed hfailed => cases hfailed.symm.trans hready.1

theorem readDrop_fine {yes : Bool} {bytes : Nat} (h : TableInv s job) (hpc : s.foreground t = .readDrop fd) :
    Fine (s.efReadStep yes bytes t (.readDrop fd)) := by
  obtain ⟨hheld, ⟨hnone, p, r, hrec, hready, hsettled⟩, hguard⟩ := h.at hpc rfl
  obtain hact | ⟨id, a, hact, hcomplete⟩ := hsettled.action hready
  · refine ⟨_, job, ?_, h.goes (.readBuffer fd) hpc rfl (.stay hguard) hheld rfl
      ⟨hnone, p, r, hrec, hready, hact⟩⟩
    simp only [efReadStep, hrec.derefSlot, testAction_null hact, ok_bind]
    rfl
  · refine ⟨_, job, ?_, h.goes (.readFree fd .cleanup .buffer) hpc rfl (.stay hguard) hheld rfl
      ⟨hnone, p, r, hrec, hready, id, a, hact⟩⟩
    simp only [efReadStep, hrec.derefSlot, testAction_live hact, ok_bind, hcomplete, if_true]
    rfl

theorem readBuffer_fine {yes : Bool} {bytes : Nat} (h : TableInv s job)
    (hpc : s.foreground t = .readBuffer fd) : Fine (s.efReadStep yes bytes t (.readBuffer fd)) := by
  obtain ⟨hheld, ⟨hnone, p, r, hrec, hready, hact⟩, hguard⟩ := h.at hpc rfl
  by_cases hbuffer : r.buffer = true
  · refine ⟨_, job, ?_, h.returns hpc rfl (.setRecord hrec hguard { r with buffer := !yes } rfl) hheld
      ⟨p, { r with buffer := !yes }, ?_, ?_⟩ bytes none⟩
    · simp only [efReadStep, hrec.derefSlot, ok_bind, if_pos hbuffer]
      rfl
    · rw [hrec.view_setRecord]
      exact hrec.set rfl
    · rw [hnone, hrec.view_setRecord]
      exact Settled.plain hready hact
  · refine ⟨_, job, ?_, h.goes (.readFire fd) hpc rfl (.stay hguard) hheld rfl
      ⟨hnone, p, r, hrec, hready, hact⟩⟩
    simp only [efReadStep, hrec.derefSlot, ok_bind, if_neg hbuffer, testAction_null hact]
    rfl

omit [DecidableEq T] in
/-- `alloc_file_action` of the thread with an open file. -/
theorem allocAction_ready (oper : FileOper) (hrec : HasRecord fd (view s fd) p r)
    (hready : Ready (view s fd) r)
    (hguard : Guarded (view s fd) (s.handleToFileAction fd) (scanAt s fd) mine) :
    Goes s (s.allocAction p r oper) fd mine ∧ ∃ r', HasRecord fd (view (s.allocAction p r oper) fd) p r' ∧
      Ready (view (s.allocAction p r oper) fd) r' ∧ Pending oper r' := by
  have hview : view (s.allocAction p r oper) fd
      = { view s fd with cell := .live { r with action := .live s.nextAction (eioCmdInit oper) } } :=
    hrec.view_setRecord _
  refine ⟨(Goes.setRecord hrec hguard { r with action := .live s.nextAction (eioCmdInit oper) }
      rfl).setNextAction (s.nextAction + 1),
    { r with action := .live s.nextAction (eioCmdInit oper) }, ?_, ?_,
    s.nextAction, eioCmdInit oper, rfl, rfl, by simp [eioCmdInit]⟩
  · rw [hview]
    exact hrec.set rfl
  · rw [hview]
    exact hready

theorem readFire_fine {yes : Bool} {bytes : Nat} (h : TableInv s job) (hpc : s.foreground t = .readFire fd) :
    Fine (s.efReadStep yes bytes t (.readFire fd)) := by
  obtain ⟨hheld, ⟨hnone, p, r, hrec, hready, hact⟩, hguard⟩ := h.at hpc rfl
  obtain ⟨hgoes, r', hrec', hready', hpending⟩ := allocAction_ready .operRead hrec hready hguard
  refine ⟨_, job, ?_, h.goes (.readEnqueue fd) hpc rfl hgoes hheld rfl
    ⟨hnone, p, r', hrec', hready', hpending⟩⟩
  simp only [efReadStep, hrec.derefSlot, ok_bind, hact]
  rfl

theorem readEnqueue_fine {yes : Bool} {bytes : Nat} (h : TableInv s job)
    (hpc : s.foreground t = .readEnqueue fd) : Fine (s.efReadStep yes bytes t (.readEnqueue fd)) := by
  obtain ⟨hheld, ⟨hnone, p, r, hrec, hready, hpending⟩, hguard⟩ := h.at hpc rfl
  have hinv := h.enqueues (.efFileRead p .start) hpc rfl hnone hguard (Or.inl rfl) rfl rfl
    ⟨p, r, hrec, rfl, hready, hpending⟩ (-1) (some .eagain)
  rw [setCustody_self (s := s.enqueueTask (.efFileRead p .start)) hheld] at hinv
  refine ⟨_, _, ?_, hinv⟩
  simp only [efReadStep, hrec.derefSlot, ok_bind]
  rfl

/-! ### `ef_close_api` -/

theorem closeFree_fine {yes immediate synced : Bool} {d : DropPc} (h : TableInv s job)
    (hpc : s.foreground t = .closeFree fd immediate synced d) :
    Fine (s.efCloseStep yes t (.closeFree fd immediate synced d)) := by
  obtain ⟨hheld, ⟨hnone, p, r, hrec, hready, hdrop⟩, hguard⟩ := h.at hpc rfl
  obtain ⟨s', r', next, hstep, hgoes, hcust, hrec', hready', hnext⟩ :=
    dropStep_ready hrec hready hdrop hguard
  have hheld' := hcust.trans hheld
  cases next with
  | some d' =>
    refine ⟨_, job, ?_, h.goes (.closeFree fd immediate synced d') hpc rfl hgoes hheld' rfl
      ⟨hnone, p, r', hrec', hready', hnext⟩⟩
    simp only [efCloseStep, hrec.derefSlot, hstep, ok_bind]
    rfl
  | none =>
    cases synced with
    | true =>
      refine ⟨_, job, ?_, h.goes (.closeAlloc fd immediate) hpc rfl hgoes hheld' rfl
        ⟨hnone, p, r', hrec', hready', hnext⟩⟩
      simp only [efCloseStep, hrec.derefSlot, hstep, ok_bind]
      rfl
    | false =>
      refine ⟨_, job, ?_, h.goes (.syncing fd immediate .lockHandle) hpc rfl hgoes hheld' rfl
        ⟨hnone, trivial, p, r', hrec', hready', hnext⟩⟩
      simp only [efCloseStep, hrec.derefSlot, hstep, ok_bind]
      rfl

theorem syncing_fine {yes immediate : Bool} {sp : SlotSyncPc} (h : TableInv s job)
    (hpc : s.foreground t = .syncing fd immediate sp) :
    Fine (s.efCloseStep yes t (.syncing fd immediate sp)) := by
  obtain ⟨hheld, ⟨hnone, hptr, p, r, hrec, hready, hact⟩, hguard⟩ := h.at hpc rfl
  obtain ⟨s', next, hstep, hgoes, hcust, hview, hnext⟩ := slotSyncStep_ok hrec hptr hguard
  have hheld' := hcust.trans hheld
  rw [← hview] at hrec hready hnext
  cases next with
  | some sp' =>
    refine ⟨_, job, ?_, h.goes (.syncing fd immediate sp') hpc rfl hgoes hheld' rfl
      ⟨hnone, hnext sp' rfl, p, r, hrec, hready, hact⟩⟩
    simp only [efCloseStep, hstep, ok_bind]
    rfl
  | none =>
    refine ⟨_, job, ?_, h.goes (.closeTest fd immediate) hpc rfl hgoes hheld' rfl
      ⟨hnone, p, r, hrec, hready, hact⟩⟩
    simp only [efCloseStep, hstep, ok_bind]
    rfl

theorem closeTest_fine {yes immediate : Bool} (h : TableInv s job)
    (hpc : s.foreground t = .closeTest fd immediate) : Fine (s.efCloseStep yes t (.closeTest fd immediate)) := by
  obtain ⟨hheld, ⟨hnone, p, r, hrec, hready, hact⟩, hguard⟩ := h.at hpc rfl
  refine ⟨_, job, ?_, h.goes (.closeDrop fd immediate) hpc rfl (.stay hguard) hheld rfl
    ⟨hnone, p, r, hrec, hready, hact⟩⟩
  simp only [efCloseStep, hrec.derefSlot, testAction_null hact, ok_bind]
  rfl

theorem closeDrop_fine {yes immediate : Bool} (h : TableInv s job)
    (hpc : s.foreground t = .closeDrop fd immediate) : Fine (s.efCloseStep yes t (.closeDrop fd immediate)) := by
  obtain ⟨hheld, ⟨hnone, p, r, hrec, hready, hact⟩, hguard⟩ := h.at hpc rfl
  refine ⟨_, job, ?_, h.goes (.closeAlloc fd immediate) hpc rfl (.stay hguard) hheld rfl
    ⟨hnone, p, r, hrec, hready, hact⟩⟩
  simp only [efCloseStep, hrec.derefSlot, hact, ok_bind, if_true]
  rfl

theorem closeAlloc_fine {yes immediate : Bool} (h : TableInv s job)
    (hpc : s.foreground t = .closeAlloc fd immediate) :
    Fine (s.efCloseStep yes t (.closeAlloc fd immediate)) := by
  obtain ⟨hheld, ⟨hnone, p, r, hrec, hready, -⟩, hguard⟩ := h.at hpc rfl
  obtain ⟨hgoes, r', hrec', hready', hpending⟩ := allocAction_ready .operClose hrec hready hguard
  refine ⟨_, job, ?_, h.goes (.closeDispatch fd immediate) hpc rfl hgoes hheld rfl
    ⟨hnone, p, r', hrec', hready', hpending⟩⟩
  simp only [efCloseStep, hrec.derefSlot, ok_bind]
  rfl

theorem closeDispatch_fine {yes immediate : Bool} (h : TableInv s job)
    (hpc : s.foreground t = .closeDispatch fd immediate) :
    Fine (s.efCloseStep yes t (.closeDispatch fd immediate)) := by
  obtain ⟨hheld, ⟨hnone, p, r, hrec, hready, hpending⟩, hguard⟩ := h.at hpc rfl
  cases immediate with
  | true =>
    refine ⟨_, job, ?_, h.goes (.closing fd p .start) hpc rfl (.stay hguard) hheld rfl
      ⟨hnone, r, hrec, hready, hpending⟩⟩
    simp only [efCloseStep, hrec.derefSlot, ok_bind, if_true]
    rfl
  | false =>
    refine ⟨_, _, ?_, h.enqueues (.efFileClose p .start) hpc rfl hnone hguard (Or.inr rfl) rfl rfl
      ⟨p, .start, rfl, r, hrec, hready, hpending⟩ 0 none⟩
    simp only [efCloseStep, hrec.derefSlot, ok_bind, Bool.false_eq_true, if_false]
    rfl

theorem closing_fine {yes : Bool} {cp : CloseTask n} (h : TableInv s job)
    (hpc : s.foreground t = .closing fd p cp) : Fine (s.efCloseStep yes t (.closing fd p cp)) := by
  obtain ⟨hheld, ⟨hnone, hclose⟩, hguard⟩ := h.at hpc rfl
  obtain ⟨s', next, hstep, hgoes, hnext⟩ :=
    closeStep_ok yes hclose hguard (by simp [hheld])
  cases next with
  | some cp' =>
    refine ⟨_, job, ?_, h.goes (.closing fd p cp') hpc rfl hgoes (hnext.1.trans hheld) rfl
      ⟨hnone, hnext.2⟩⟩
    simp only [efCloseStep, hstep, ok_bind]
    rfl
  | none =>
    refine ⟨_, job, ?_, h.leaves hpc rfl hgoes hnone hnext 0 none⟩
    simp only [efCloseStep, hstep, ok_bind]
    rfl

/-- A thread inside a call goes on. -/
theorem foregroundStep_fine (yes : Bool) (bytes : Nat) (h : TableInv s job) (t : T)
    (hbusy : s.foreground t ≠ .idle) : Fine (s.foregroundStep yes bytes t) := by
  unfold foregroundStep
  cases hpc : s.foreground t with
  | idle => exact absurd hpc hbusy
  | openLock fd oflag => exact openLock_fine h hpc
  | openPublish fd oflag => exact openPublish_fine h hpc
  | openUnlock fd p oflag => exact openUnlock_fine h hpc
  | openInit fd p oflag => exact openInit_fine h hpc
  | openAction fd p oflag => exact openAction_fine h hpc
  | openAttempt fd p => exact openAttempt_fine h hpc
  | openEnqueue fd p => exact openEnqueue_fine h hpc
  | statusTest fd => exact statusTest_fine h hpc
  | statusFree fd d => exact statusFree_fine h hpc
  | statusCleanup fd err c => exact statusCleanup_fine h hpc
  | readDispatch fd => exact readDispatch_fine h hpc
  | readFree fd d k => exact readFree_fine h hpc
  | readDrop fd => exact readDrop_fine h hpc
  | readBuffer fd => exact readBuffer_fine h hpc
  | readFire fd => exact readFire_fine h hpc
  | readEnqueue fd => exact readEnqueue_fine h hpc
  | closeFree fd immediate synced d => exact closeFree_fine h hpc
  | syncing fd immediate sp => exact syncing_fine h hpc
  | closeTest fd immediate => exact closeTest_fine h hpc
  | closeDrop fd immediate => exact closeDrop_fine h hpc
  | closeAlloc fd immediate => exact closeAlloc_fine h hpc
  | closeDispatch fd immediate => exact closeDispatch_fine h hpc
  | closing fd p cp => exact closing_fine h hpc

end Threads

end Efio.Proofs.Evio.Table
