import Efio.Proofs.Evio.SlotCalls

/-!
# `Efio.Proofs.Evio.SlotSafety`: every step keeps the slots in order

What `Efio.Proofs.Evio.SlotCalls` shows for a thread inside a call is shown
here for the other parties: a task (`taskStep_fine`), a thread that starts a
call (`callStep_fine`), `slow_sync` (`slowSyncStep_cases`), and a slot that
goes to another thread. `step_cases` puts them together: a step keeps the
invariant, or it reads memory that is not there in one of two places.
-/

set_option autoImplicit false

namespace Efio.Proofs.Evio.Table

open Efio.Lib
open Efio.Evio
open Efio.Evio.FileTable

variable {n : Nat} {T : Type} {fd : Fin n} {v : SlotView n} {s s₁ s' : FileTable n T}
  {job job' : Fin n → Option Nat} {own : Option Nat} {p k i : Nat} {r r' : FileRecord n}
  {mine : Bool} {t : T} {pc : TablePc n} {task : DiskTask n}

/-! ### Tasks -/

/-- A task works on a slot only while its thread is between two calls, or
looks at the status. It may change the record. -/
theorem PcOk.working (h : PcOk fd v (some task) pc) :
    pcLocks pc = false ∧ ∃ p r, HasRecord fd v p r ∧ Working v p r (some task) ∧
      ∀ v' r' task', HasRecord fd v' p r' → Working v' p r' task' →
        (r.status ≠ .fileOpenAttempted → r'.status = r.status) → PcOk fd v' task' pc := by
  cases pc with
  | idle =>
    obtain ⟨p, r, hrec, hwork⟩ := h
    exact ⟨rfl, p, r, hrec, hwork, fun v' r' task' hrec' hwork' _ => ⟨p, r', hrec', hwork'⟩⟩
  | statusTest fd' =>
    obtain ⟨p, r, hrec, hwork, hstatus⟩ := h
    exact ⟨rfl, p, r, hrec, hwork, fun v' r' task' hrec' hwork' hsame =>
      ⟨p, r', hrec', hwork', by rw [hsame hstatus]; exact hstatus⟩⟩
  | readDispatch fd' =>
    obtain ⟨p, r, hrec, hwork, hstatus⟩ := h
    exact ⟨rfl, p, r, hrec, hwork, fun v' r' task' hrec' hwork' hsame =>
      ⟨p, r', hrec', hwork', (hsame (by simp [hstatus])).trans hstatus⟩⟩
  | _ => cases h.1

/-- The task of a slot has made a step. When nothing is left to do on the
record, the slot does not wait for it any more. -/
theorem TableInv.works (h : TableInv s job) (next : Option (DiskTask n)) (hjob : job fd = some i)
    {c : DiskTask n} (hcell : s.tasks.cells i = .live c) (hgoes : Goes s s₁ fd mine)
    (hplace : s₁.custody fd = s.custody fd ∨ pcAt s fd = .idle ∧ ∀ t, s₁.custody fd ≠ .held t)
    (hheld : ∀ t, slot? (s.foreground t) = some fd → s₁.custody fd = .held t)
    (hok : CustodianOk fd (view s₁ fd) (next.filter busy) (pcAt s fd) (s₁.custody fd))
    (hmine : locks (next.filter busy) (pcAt s fd) (s₁.custody fd) = mine)
    (hnamed : ∀ p, next.bind notified? = some p → Named s₁ p) :
    ∃ job', TableInv { s₁ with tasks := s₁.tasks.set i (next.elim .unallocated .live) } job' := by
  obtain ⟨⟨own, hown, htouch, hfg, htasks⟩, hguard⟩ := hgoes
  have hcoh := h.coherent
  have hcell₁ : s₁.tasks.cells i = .live c := (congrArg (fun o => o.cells i) htasks).trans hcell
  have hset (x : Cell (DiskTask n)) : (s₁.tasks.set i x).cells i = x :=
    Objects.set_self hcell₁ (by simp) x
  have htask : taskAt { s₁ with tasks := s₁.tasks.set i (next.elim .unallocated .live) }
      ((next.filter busy).map fun _ => i) = next.filter busy := by
    cases next with
    | none => rfl
    | some task =>
      by_cases hb : busy task = true
      · have hkeep : (some task).filter busy = some task := by simp [Option.filter, hb]
        simp [hkeep, taskAt, hset]
      · have hdrop : (some task).filter busy = none := by simp [Option.filter, hb]
        rw [hdrop]
        rfl
  have htouch' : Touches s { s₁ with tasks := s₁.tasks.set i (next.elim .unallocated .live) } fd own :=
    htouch.trans { Touches.refl s₁ fd own with }
  -- The task is the only one of the slot.
  have honly : ∀ j task, (s₁.tasks.set i (next.elim .unallocated .live)).cells j = .live task →
      job fd = some j ∨ s.tasks.fresh ≤ j → j = i ∧ next = some task := by
    intro j task hj hor
    by_cases hne : j = i
    · subst hne
      refine ⟨rfl, ?_⟩
      cases next with
      | none => cases (hset _).symm.trans hj
      | some task' => exact congrArg some (Cell.live.inj ((hset _).symm.trans hj))
    · obtain hj' | hge := hor
      · exact absurd (Option.some.inj (hj'.symm.trans hjob)) hne
      · have hlive : s.tasks.cells j = .live task :=
          (congrArg (fun o => o.cells j) htasks).symm.trans ((Objects.set_of_ne hne _).symm.trans hj)
        exact absurd (Objects.lt_fresh hlive (by simp)) (Nat.not_lt.mpr hge)
  refine ⟨Function.update job fd ((next.filter busy).map fun _ => i),
    h.local htouch' hown ?_ ?_ ?_ ?_ ?_ ?_ ?_ ⟨?_, ?_⟩⟩
  · intro fd' hne
    unfold pcAt
    simp only [htouch.custody fd' hne, hfg]
  · intro u fd' hu
    have hu' : slot? (s.foreground u) = some fd' := hfg ▸ hu
    by_cases hne : fd' = fd
    · subst hne
      exact hheld u hu'
    · exact (htouch.custody fd' hne).trans (hcoh.held u fd' hu')
  · intro j _ hj
    have hne : j ≠ i := by
      rintro rfl
      exact hj hjob
    exact (Objects.set_of_ne hne _).trans (congrArg (fun o => o.cells j) htasks)
  · exact Nat.le_of_eq (congrArg Objects.fresh htasks).symm
  · intro j hj
    obtain ⟨-, -, rfl⟩ := Option.map_eq_some_iff.mp hj
    exact ⟨Nat.lt_of_lt_of_eq (hcoh.jobGiven fd i hjob) (congrArg Objects.fresh htasks).symm, Or.inl hjob⟩
  · intro j task hj hb hor
    obtain ⟨rfl, rfl⟩ := honly j task hj hor
    simp [Option.filter, hb]
  · intro j task p hj hp hor
    obtain ⟨rfl, rfl⟩ := honly j task hj hor
    exact hnamed p hp
  all_goals
    have hpcAt : pcAt { s₁ with tasks := s₁.tasks.set i (next.elim .unallocated .live) } fd = pcAt s fd := by
      obtain hsame | ⟨hidle, hnot⟩ := hplace
      · unfold pcAt
        simp only [hsame, hfg]
      · rw [hidle]
        unfold pcAt
        cases hc : s₁.custody fd with
        | held u => exact absurd hc (hnot u)
        | queued | closing | lost => rfl
    rw [htask, hpcAt]
  · exact hok
  · exact hmine ▸ hguard

/-- A task that has only to return. -/
theorem TableInv.dropTask (h : TableInv s job) (hfree : ∀ fd, job fd ≠ some i) :
    TableInv { s with tasks := s.tasks.set i .unallocated } job where
  coherent :=
    { h.coherent with
      tasks := fun j task hj hb => by
        by_cases hne : j = i
        · subst hne
          cases Objects.free_self.symm.trans hj
        · exact h.coherent.tasks j task ((Objects.set_of_ne hne _).symm.trans hj) hb
      named := fun j task p hj hp => by
        by_cases hne : j = i
        · subst hne
          cases Objects.free_self.symm.trans hj
        · exact h.coherent.named j task p ((Objects.set_of_ne hne _).symm.trans hj) hp }
  slots fd := by
    have htask : taskAt { s with tasks := s.tasks.set i .unallocated } (job fd) = taskAt s (job fd) := by
      cases hj : job fd with
      | none => rfl
      | some j =>
        have hne : j ≠ i := by
          rintro rfl
          exact hfree fd hj
        simp only [taskAt, Option.bind_some]
        rw [Objects.set_of_ne hne]
    obtain ⟨hcust, hguard⟩ := h.slots fd
    constructor
    · rw [htask]
      exact hcust
    · rw [htask]
      exact hguard

/-- The task of a slot has to do with its record. -/
theorem TableInv.busy_of_job (h : TableInv s job) (hjob : job fd = some i)
    (hcell : s.tasks.cells i = .live task) : busy task = true := by
  have htask : taskAt s (job fd) = some task := by
    simp [taskAt, hjob, hcell]
  have hcust := (h.slots fd).custodian
  rw [htask] at hcust
  cases hc : s.custody fd with
  | queued | lost =>
    rw [hc] at hcust
    cases hcust.1
  | closing =>
    rw [hc] at hcust
    obtain ⟨p, pc, heq, -⟩ := hcust
    cases heq
    rfl
  | held t =>
    rw [hc] at hcust
    obtain ⟨-, p, r, -, hwork, -⟩ := PcOk.working hcust
    cases task with
    | efFileOpen p' pc =>
      cases pc <;> first | rfl | exact hwork.2.elim
    | efFileRead p' pc =>
      cases pc <;> first | rfl | exact hwork.2.elim
    | efFileClose p' pc => rfl

/-- A task calls the callback for a record that has been freed. -/
def NotifiesFreed (s : FileTable n T) : Prop :=
  ∃ i task p, s.tasks.cells i = .live task ∧ notified? task = some p ∧
    s.records.cells p = .unallocated ∧ s.cbFunc = true

theorem HasRecord.named (h : HasRecord fd (view s fd) p r) : Named s p :=
  ⟨Objects.lt_fresh h.cells (by simp), Or.inr ⟨r, h.cells, by simp [h.efFd]⟩⟩

/-- The callback can be called, or the record is gone. -/
theorem Named.notify (h : Named s p) :
    s.notify p = .ok () ∨ s.notify p = .error .useAfterFree ∧ s.records.cells p = .unallocated ∧
      s.cbFunc = true := by
  obtain ⟨-, hfreed | ⟨r, hlive, hefFd⟩⟩ := h
  · by_cases hcb : s.cbFunc = true
    · refine Or.inr ⟨?_, hfreed, hcb⟩
      simp only [FileTable.notify, if_pos hcb, derefRecord, hfreed]
      rfl
    · exact Or.inl (if_neg hcb)
  · exact Or.inl (notify_ok hlive hefFd)

/-- The last step of a task that has done its work. -/
theorem notifyStep_fine (h : TableInv s job) (hcell : s.tasks.cells i = .live task)
    (hp : notified? task = some p) {x : Except TableFault (FileTable n T)}
    (hquiet : s.notify p = .ok () → x = .ok { s with tasks := s.tasks.set i .unallocated })
    (hfails : s.notify p = .error .useAfterFree →
      x = .ok { s with tasks := s.tasks.set i .unallocated } ∨ x = .error .useAfterFree) :
    Fine x ∨ x = .error .useAfterFree ∧ NotifiesFreed s := by
  have hfree : ∀ fd, job fd ≠ some i := by
    intro fd hjob
    have hbusy := h.busy_of_job hjob hcell
    simp [busy, hp] at hbusy
  have hfine : Fine (.ok { s with tasks := s.tasks.set i .unallocated }) :=
    ⟨_, job, rfl, h.dropTask hfree⟩
  obtain hok | ⟨herror, hfreed, hcb⟩ := (h.coherent.named i task p hcell hp).notify
  · exact Or.inl (hquiet hok ▸ hfine)
  · obtain hx | hx := hfails herror
    · exact Or.inl (hx ▸ hfine)
    · exact Or.inr ⟨hx, i, task, p, hcell, hp, hfreed, hcb⟩

/-- A task goes on. -/
theorem taskStep_fine (h : TableInv s job) (bytes : Option Nat) (hcell : s.tasks.cells i = .live task) :
    ∃ x, s.taskStep i bytes = some x ∧ (Fine x ∨ x = .error .useAfterFree ∧ NotifiesFreed s) := by
  unfold taskStep
  rw [hcell]
  refine ⟨_, rfl, ?_⟩
  by_cases hb : busy task = true
  · refine Or.inl ?_
    obtain ⟨fd, hjob⟩ := h.coherent.tasks i task hcell hb
    have htask : taskAt s (job fd) = some task := by
      simp [taskAt, hjob, hcell]
    have hpc : ∀ u, slot? (s.foreground u) = some fd → s.custody fd = .held u :=
      fun u hu => h.coherent.held u fd hu
    obtain ⟨hcust, hguard⟩ := h.slots fd
    rw [htask] at hcust hguard
    cases hc : s.custody fd with
    | queued | lost =>
      rw [hc] at hcust
      cases hcust.1
    | closing =>
      rw [hc] at hcust hguard
      obtain ⟨p, pc, heq, hclose⟩ := hcust
      cases heq
      have hidle : pcAt s fd = .idle := by
        unfold pcAt
        rw [hc]
      have hnobody : ∀ u, slot? (s.foreground u) ≠ some fd := fun u hu => by
        cases hc.symm.trans (hpc u hu)
      obtain ⟨s₁, next, hstep', hgoes, hnext⟩ :=
        closeStep_ok bytes.isSome hclose hguard (by simp [hc])
      cases next with
      | some pc' =>
        obtain ⟨job', hinv⟩ := h.works (some (.efFileClose p pc')) hjob hcell hgoes (Or.inl hnext.1)
          (fun u hu => absurd hu (hnobody u)) (by rw [hnext.1, hc]; exact ⟨p, pc', rfl, hnext.2⟩)
          (by rw [hnext.1, hc]; rfl) (fun q hq => by cases hq)
        refine ⟨_, job', ?_, hinv⟩
        simp only [diskStep, hstep', ok_bind]
        rfl
      | none =>
        have hleft : ∀ u, s₁.custody fd ≠ .held u := by
          intro u hu
          obtain ⟨hq, -⟩ | ⟨hl, -⟩ := hnext
          · cases hu.symm.trans hq
          · cases hu.symm.trans hl
        obtain ⟨job', hinv⟩ := h.works none hjob hcell hgoes (Or.inr ⟨hidle, hleft⟩)
          (fun u hu => absurd hu (hnobody u))
          (by
            obtain ⟨hq, hptr⟩ | ⟨hl, hrec⟩ := hnext
            · rw [hq]
              exact ⟨rfl, hptr⟩
            · rw [hl]
              exact ⟨rfl, hrec⟩)
          (by
            obtain ⟨hq, -⟩ | ⟨hl, -⟩ := hnext
            · rw [hq]
              rfl
            · rw [hl]
              rfl)
          (fun q hq => by cases hq)
        refine ⟨_, job', ?_, hinv⟩
        simp only [diskStep, hstep', ok_bind]
        rfl
    | held u =>
      rw [hc] at hcust hguard
      obtain ⟨hlocks, p, r, hrec, hwork, hkeep⟩ := PcOk.working hcust
      have hmine : locks (some task) (pcAt s fd) (.held u) = false := hlocks
      rw [hmine] at hguard
      -- The two kinds of tasks differ in the step only.
      have hgoes : ∃ s₁ next, s.diskStep bytes task = .ok (s₁, some next) ∧
          Went s s₁ fd p r false next ∧ ∀ q, notified? next = some q → q = p := by
        cases task with
        | efFileOpen p' pc =>
          obtain ⟨rfl, hopening⟩ := hwork
          obtain ⟨s₁, next, hstep', hwent⟩ := openStep_ok bytes.isSome hrec hopening hguard
          refine ⟨s₁, .efFileOpen p' next, ?_, hwent, fun q hq => ?_⟩
          · simp only [diskStep, hstep', ok_bind]
            rfl
          · cases next <;> cases hq
            rfl
        | efFileRead p' pc =>
          obtain ⟨rfl, hreading⟩ := hwork
          obtain ⟨s₁, next, hstep', hwent⟩ := readStep_ok bytes hrec hreading hguard
          refine ⟨s₁, .efFileRead p' next, ?_, hwent, fun q hq => ?_⟩
          · simp only [diskStep, hstep', ok_bind]
            rfl
          · cases next <;> cases hq
            rfl
        | efFileClose p' pc => exact hwork.elim
      obtain ⟨s₁, next, hstep', ⟨hgoes, hsame, r', hrec', hwork', hstatus⟩, hnotified⟩ := hgoes
      have hnext := hkeep _ r' _ hrec' hwork' hstatus
      obtain ⟨job', hinv⟩ := h.works (some next) hjob hcell hgoes (Or.inl hsame)
        (fun u hu => hsame.trans (hpc u hu)) (by rw [hsame, hc]; exact hnext)
        (by rw [hsame, hc]; exact hlocks) (fun q hq => hnotified q hq ▸ hrec'.named)
      refine ⟨_, job', ?_, hinv⟩
      simp only [hstep', ok_bind]
      rfl
  · cases task with
    | efFileOpen p pc =>
      cases pc with
      | notify =>
        refine notifyStep_fine h hcell rfl (fun hok => ?_) (fun herror => Or.inr ?_)
        · simp only [diskStep, openStep, hok, ok_bind]
          rfl
        · simp only [diskStep, openStep, herror]
          rfl
      | _ => exact absurd rfl hb
    | efFileRead p pc =>
      cases pc with
      | notify wasEmpty =>
        cases wasEmpty with
        | false => exact notifyStep_fine h hcell rfl (fun _ => rfl) (fun _ => Or.inl rfl)
        | true =>
          refine notifyStep_fine h hcell rfl (fun hok => ?_) (fun herror => Or.inr ?_)
          · simp only [diskStep, readStep, hok, ok_bind, if_true]
            rfl
          · simp only [diskStep, readStep, herror, if_true]
            rfl
      | _ => exact absurd rfl hb
    | efFileClose p pc => exact absurd rfl hb

/-! ### Calls -/

section Calls

variable [DecidableEq T]

/-- A thread between two calls starts one on its slot. -/
theorem TableInv.starts (h : TableInv s job) (pc : TablePc n) (hheld : s.custody fd = .held t)
    (hidle : s.foreground t = .idle) (hslot : slot? pc = some fd) (hlocks : pcLocks pc = false)
    (hok : PcOk fd (view s fd) (taskAt s (job fd)) pc) : TableInv (s.goto t pc) job := by
  obtain ⟨-, hguard⟩ := h.between hheld hidle
  refine h.moves hheld (Or.inr hidle) (.stay hguard) (Or.inl ⟨hslot, hheld⟩) (fun u hu => ?_) ?_ ?_
  · exact (Custody.held.inj (hheld.symm.trans hu)).symm
  · rw [hheld]
    exact hok
  · rw [hheld]
    exact hlocks

/-- The call returns at once. -/
theorem TableInv.answers (h : TableInv s job) (hidle : s.foreground t = .idle) (ret : Int)
    (err : Option Errno) : TableInv (s.finish t ret err) job := by
  have hgoto : s.goto t .idle = s := by
    unfold goto
    rw [← hidle, Function.update_eq_self]
  unfold finish
  rw [hgoto]
  exact h.setReturned _

omit [DecidableEq T] in
/-- The first unused slot is taken. -/
theorem Touches.dequeue {rest : List (Fin n)} (hqueue : s.fdQueue = fd :: rest) :
    Touches s { s.setCustody fd (.held t) with fdQueue := rest } fd none :=
  { Touches.refl s fd none with
    custody := fun _ hne => Function.update_of_ne hne _ _
    queue := by
      rintro ⟨hnodup, hmem⟩
      rw [hqueue] at hnodup hmem
      obtain ⟨hnot, hnodup'⟩ := List.nodup_cons.mp hnodup
      refine ⟨hnodup', fun fd' => ?_⟩
      by_cases hne : fd' = fd
      · subst hne
        simp [setCustody, hnot]
      · simp only [setCustody, Function.update_of_ne hne, ← hmem fd', List.mem_cons, hne, false_or] }

theorem TableInv.opens {rest : List (Fin n)} (h : TableInv s job) (hidle : s.foreground t = .idle)
    (hqueue : s.fdQueue = fd :: rest) (oflag : ReadFlags) :
    TableInv ({ s.setCustody fd (.held t) with fdQueue := rest }.goto t (.openLock fd oflag)) job := by
  have hqueued : s.custody fd = .queued := (h.coherent.queue.2 fd).mp (by rw [hqueue]; exact List.mem_cons_self)
  have htouch := Touches.dequeue (t := t) hqueue
  have hcust : Function.update s.custody fd (.held t) fd = .held t := Function.update_self _ _ _
  obtain ⟨hslot, hguard⟩ := h.slots fd
  rw [hqueued] at hslot hguard
  have hgoto : Touches s ({ s.setCustody fd (.held t) with fdQueue := rest }.goto t (.openLock fd oflag)) fd
      none := htouch.trans { Touches.refl _ fd none with }
  refine h.local_of_tasks hgoto .none
    (fun fd' hne => pcAt_goto htouch rfl (Or.inr hidle) (Or.inl rfl) hne) ?_ rfl ⟨?_, ?_⟩
  · intro u fd' hu
    by_cases hut : u = t
    · subst hut
      simp only [goto, Function.update_self] at hu
      cases hu
      exact hcust
    · simp only [goto, Function.update_of_ne hut] at hu
      have hother := h.coherent.held u fd' hu
      have hne : fd' ≠ fd := by
        rintro rfl
        cases hother.symm.trans hqueued
      exact (htouch.custody fd' hne).trans hother
  all_goals
    have hplace : pcAt ({ s.setCustody fd (.held t) with fdQueue := rest }.goto t (.openLock fd oflag)) fd
        = .openLock fd oflag := by
      unfold pcAt
      simp only [goto, setCustody, hcust, Function.update_self]
      exact if_pos rfl
    have hheld : ({ s.setCustody fd (.held t) with fdQueue := rest }.goto t (.openLock fd oflag)).custody fd
        = .held t := hcust
    rw [hplace, hheld]
  · exact hslot
  · exact hguard

/-- The slot a call is about belongs to the thread. -/
theorem callStep_fine (h : TableInv s job) (hidle : s.foreground t = .idle) (c : TableCall n)
    (hcust : ∀ fd, c.slot? = some fd → s.custody fd = .held t) : Fine (s.callStep t c) := by
  cases c with
  | efOpen path oflag =>
    simp only [callStep]
    split
    · exact ⟨_, job, rfl, h.answers hidle _ _⟩
    · split
      · exact ⟨_, job, rfl, h.answers hidle _ _⟩
      · rename_i fd rest hqueue
        exact ⟨_, job, rfl, h.opens hidle hqueue oflag⟩
  | efOpenStatus fd =>
    have hheld := hcust fd rfl
    obtain ⟨⟨p, r, hrec, hwork⟩, -⟩ := h.between hheld hidle
    by_cases hattempted : r.status = .fileOpenAttempted
    · refine ⟨_, job, ?_, h.answers hidle (-1) (some .eagain)⟩
      simp only [callStep, hrec.openFiles, hrec.derefRecord, ok_bind, if_pos hattempted]
      rfl
    · refine ⟨_, job, ?_, h.starts (.statusTest fd) hheld hidle rfl rfl ⟨p, r, hrec, hwork, hattempted⟩⟩
      simp only [callStep, hrec.openFiles, hrec.derefRecord, ok_bind, if_neg hattempted]
      rfl
  | efRead fd argsOk atEof =>
    have hheld := hcust fd rfl
    obtain ⟨⟨p, r, hrec, hwork⟩, -⟩ := h.between hheld hidle
    simp only [callStep, hrec.openFiles]
    split
    · exact ⟨_, job, rfl, h.answers hidle _ _⟩
    · simp only [hrec.derefRecord, ok_bind]
      split
      · exact ⟨_, job, rfl, h.answers hidle _ _⟩
      · rename_i hopen
        have hstatus : r.status = .fileOpen := not_not.mp hopen
        split
        · exact ⟨_, job, rfl, h.answers hidle _ _⟩
        · split
          all_goals
            split
            · exact ⟨_, job, rfl, h.answers hidle _ _⟩
            · exact ⟨_, job, rfl, h.starts (.readDispatch fd) hheld hidle rfl rfl ⟨p, r, hrec, hwork, hstatus⟩⟩
  | efClose fd immediate =>
    have hheld := hcust fd rfl
    obtain ⟨⟨p, r, hrec, hwork⟩, -⟩ := h.between hheld hidle
    simp only [callStep, hrec.openFiles, hrec.derefRecord, ok_bind]
    split
    · exact ⟨_, job, rfl, h.answers hidle _ _⟩
    · rename_i hopen
      have hstatus : r.status = .fileOpen := not_not.mp hopen
      have hset : r.status ≠ .fileOpenAttempted := by simp [hstatus]
      obtain ⟨hnone, hsettled⟩ | ⟨hready, id, a, hact, hcmd, hpending⟩ := hwork.cases hset
      · have hready : Ready (view s fd) r := by
          cases hsettled with
          | plain hready | opened hready | read hready => exact hready
          | failed hfailed => cases hfailed.symm.trans hstatus
        obtain hact | ⟨id, a, hact, hcomplete⟩ := hsettled.action hready
        · simp only [testAction_null hact, ok_bind]
          exact ⟨_, job, rfl, h.starts (.syncing fd immediate .lockHandle) hheld hidle rfl rfl
            ⟨hnone, trivial, p, r, hrec, hready, hact⟩⟩
        · simp only [testAction_live hact, ok_bind]
          split
          · exact ⟨_, job, rfl, h.answers hidle _ _⟩
          · have hnot : ¬ (a.cmd ≠ .operWrite ∧ a.actionStatus ≠ .actionComplete) := by simp [hcomplete]
            rw [if_neg hnot]
            exact ⟨_, job, rfl, h.starts (.closeFree fd immediate false .cleanup) hheld hidle rfl rfl
              ⟨hnone, p, r, hrec, hready, id, a, hact⟩⟩
      · simp only [testAction_live hact, ok_bind, hcmd, hpending, reduceCtorEq, ne_eq, not_false_eq_true,
          and_self, if_false, if_true]
        exact ⟨_, job, rfl, h.answers hidle _ _⟩

end Calls

/-! ### `slow_sync` -/

/-- `slow_sync` at another place. -/
theorem Guarded.rescan {word : Int} {scan scan' : Option SlotSyncPc} (h : Guarded v word scan mine)
    (hlocks : scan'.any syncLocks = scan.any syncLocks) (hptr : ∀ q, scan' = some q → SyncPtr v.ptr q)
    (hlive : ∀ p, scan' = some (.checkOflag p) → ∃ r, v.cell = .live r) : Guarded v word scan' mine where
  value := by rw [hlocks]; exact h.value
  alone hm := by rw [hlocks]; exact h.alone hm
  pointer := hptr
  live := hlive
  allocated := h.allocated

/-- `slow_sync` takes the free word. -/
theorem Guarded.scanAcquire (h : Guarded v 0 (some .lockHandle) mine) :
    Guarded v 1 (some .checkFile) mine where
  value := by simp [syncLocks]
  alone hm := by cases hm.symm.trans h.free.1
  pointer _ hq := by
    cases hq
    trivial
  live _ hq := by cases hq
  allocated := h.allocated

/-- `slow_sync` gives the lock back. -/
theorem Guarded.scanRelease {word : Int} (h : Guarded v word (some .unlockHandle) mine) :
    word = 1 ∧ Guarded v 0 none mine := by
  have hmine : mine = false := by
    cases hm : mine with
    | false => rfl
    | true => cases h.alone hm
  have hvalue := h.value
  refine ⟨by simpa [syncLocks] using hvalue, ?_, ?_, ?_, ?_, h.allocated⟩
  · simp [hmine]
  · simp
  · simp
  · simp

/-- A step of `slow_sync`, which may change the lock word of one slot. -/
theorem TableInv.scans (h : TableInv s job) (word : Fin n → Int) (scan : ScanPc n)
    (hguard : ∀ fd mine, Guarded (view s fd) (s.handleToFileAction fd) (scanAt s fd) mine →
      Guarded (view s fd) (word fd)
        (scanAt { s with handleToFileAction := word, slowSync := scan } fd) mine) :
    TableInv { s with handleToFileAction := word, slowSync := scan } job where
  coherent := { h.coherent with }
  slots fd := ⟨(h.slots fd).custodian, hguard fd _ (h.slots fd).guarded⟩

/-- A step of `slow_sync` on the slot `i`. -/
theorem TableInv.scansAt (h : TableInv s job) {i : Fin n} {sp : SlotSyncPc}
    (hscan : s.slowSync = .syncing i sp) (w : Int) (next : Option SlotSyncPc)
    (hguard : ∀ mine, Guarded (view s i) (s.handleToFileAction i) (some sp) mine →
      Guarded (view s i) w next mine) :
    TableInv { s with
      handleToFileAction := Function.update s.handleToFileAction i w
      slowSync := next.elim (.test (i + 1)) (.syncing i) } job := by
  refine h.scans _ _ fun fd mine hfd => ?_
  by_cases hne : fd = i
  · subst hne
    have hold : scanAt s fd = some sp := by simp [scanAt, hscan]
    have hnew : scanAt { s with
        handleToFileAction := Function.update s.handleToFileAction fd w
        slowSync := next.elim (.test (fd + 1)) (.syncing fd) } fd = next := by
      cases next <;> simp [scanAt]
    rw [hold] at hfd
    rw [hnew, Function.update_self]
    exact hguard mine hfd
  · have hold : scanAt s fd = none := by simp [scanAt, hscan, Ne.symm hne]
    have hnew : scanAt { s with
        handleToFileAction := Function.update s.handleToFileAction i w
        slowSync := next.elim (.test (i + 1)) (.syncing i) } fd = none := by
      cases next <;> simp [scanAt, Ne.symm hne]
    rw [hold] at hfd
    rw [hnew, Function.update_of_ne hne]
    exact hfd

/-- The same without a change of the word. -/
theorem TableInv.scansOn (h : TableInv s job) {i : Fin n} {sp : SlotSyncPc}
    (hscan : s.slowSync = .syncing i sp) (next : Option SlotSyncPc)
    (hguard : ∀ mine, Guarded (view s i) (s.handleToFileAction i) (some sp) mine →
      Guarded (view s i) (s.handleToFileAction i) next mine) :
    TableInv { s with slowSync := next.elim (.test (i + 1)) (.syncing i) } job := by
  have hinv := h.scansAt hscan (s.handleToFileAction i) next hguard
  rwa [Function.update_eq_self] at hinv

/-- `slow_sync` reads a record that is not initialised. -/
def ReadsRaw (s : FileTable n T) : Prop :=
  ∃ fd p, s.slowSync = .syncing fd (.checkStatus p) ∧ s.records.cells p = .raw

/-- `slow_sync` is between two slots, or about to take the lock of one. -/
def Starts : ScanPc n → Prop
  | .asleep | .test _ => True
  | .syncing _ sp => sp = .lockHandle

theorem TableInv.starting (h : TableInv s job) (scan : ScanPc n) (hbefore : ∀ fd, scanAt s fd = none)
    (hscan : Starts scan) : TableInv { s with slowSync := scan } job := by
  have hinv := h.scans s.handleToFileAction scan fun fd mine hfd => ?_
  · exact hinv
  · rw [hbefore fd] at hfd
    have hafter : scanAt { s with slowSync := scan } fd = none ∨
        scanAt { s with slowSync := scan } fd = some .lockHandle := by
      cases scan with
      | asleep | test i => exact Or.inl rfl
      | syncing i sp =>
        cases hscan
        by_cases hi : i = fd
        · exact Or.inr (if_pos hi)
        · exact Or.inl (if_neg hi)
    obtain hnone | hlock := hafter
    · exact hnone ▸ hfd
    · refine hlock ▸ hfd.rescan rfl (fun q hq => ?_) (fun q hq => ?_)
      · cases hq
        trivial
      · cases hq

/-- A step of `slow_sync`. -/
theorem slowSyncStep_cases (h : TableInv s job) :
    Fine s.slowSyncStep ∨ s.slowSyncStep = .error .uninitialised ∧ ReadsRaw s := by
  cases hscan : s.slowSync with
  | asleep =>
    have hbefore : ∀ fd, scanAt s fd = none := fun fd => by simp [scanAt, hscan]
    refine Or.inl ⟨_, job, ?_, h.starting (.test 0) hbefore trivial⟩
    simp only [slowSyncStep, hscan]
  | test i =>
    have hbefore : ∀ fd, scanAt s fd = none := fun fd => by simp [scanAt, hscan]
    refine Or.inl ⟨_, job, by simp only [slowSyncStep, hscan]; rfl, h.starting _ hbefore ?_⟩
    split
    · split
      · rfl
      · trivial
    · trivial
  | syncing i sp =>
    cases sp with
    | lockHandle =>
      refine Or.inl ?_
      obtain ⟨-, hguard⟩ := h.slots i
      obtain hfree | htaken := hguard.any_locks
      · refine ⟨_, job, ?_, h.scansAt hscan 1 (some .checkFile) fun mine hm => ?_⟩
        · simp only [slowSyncStep, hscan, slotSyncStep, lockHandle_free hfree, if_true]
          rfl
        · rw [hfree] at hm
          exact hm.scanAcquire
      · refine ⟨_, job, ?_, h.scansOn hscan (some .lockHandle) fun mine hm => hm⟩
        simp only [slowSyncStep, hscan, slotSyncStep, lockHandle_taken htaken, Bool.false_eq_true, if_false]
        rfl
    | checkFile =>
      refine Or.inl ⟨_, job, ?_, h.scansOn hscan (some ((s.openFiles i).elim .unlockHandle .checkStatus))
        fun mine hm => hm.rescan ?_ ?_ ?_⟩
      · simp only [slowSyncStep, hscan, slotSyncStep]
        rfl
      · cases s.openFiles i <;> rfl
      · intro q hq
        cases hptr : s.openFiles i with
        | none =>
          rw [hptr] at hq
          cases hq
          trivial
        | some p =>
          rw [hptr] at hq
          cases hq
          exact hptr
      · intro q hq
        cases hptr : s.openFiles i with
        | none =>
          rw [hptr] at hq
          cases hq
        | some p =>
          rw [hptr] at hq
          cases hq
    | checkStatus p =>
      obtain ⟨-, hguard⟩ := h.slots i
      have hat : scanAt s i = some (.checkStatus p) := by simp [scanAt, hscan]
      rw [hat] at hguard
      have hptr : s.openFiles i = some p := hguard.pointer _ rfl
      have hmine : locks (taskAt s (job i)) (pcAt s i) (s.custody i) = false := by
        cases hm : locks (taskAt s (job i)) (pcAt s i) (s.custody i) with
        | false => rfl
        | true => cases hguard.alone hm
      have hcellAt : (view s i).cell = s.records.cells p := by
        simp [view, cellAt, hptr]
      have halloc : s.records.cells p ≠ .unallocated :=
        hcellAt ▸ hguard.allocated hmine (by simp [view, hptr])
      cases hcell : s.records.cells p with
      | unallocated => exact absurd hcell halloc
      | raw =>
        refine Or.inr ⟨?_, i, p, hscan, hcell⟩
        simp only [slowSyncStep, hscan, slotSyncStep, derefRecord, hcell]
        rfl
      | live r =>
        refine Or.inl ⟨_, job, ?_, h.scansOn hscan
          (some (if r.status ≠ .fileOpen then .unlockHandle else .checkOflag p)) fun mine hm => hm.rescan ?_ ?_ ?_⟩
        · simp only [slowSyncStep, hscan, slotSyncStep, derefRecord, hcell, ok_bind]
          rfl
        · split <;> rfl
        · intro q hq
          cases hq
          split
          · trivial
          · exact hptr
        · intro q hq
          exact ⟨r, hcellAt.trans hcell⟩
    | checkOflag p =>
      obtain ⟨-, hguard⟩ := h.slots i
      have hat : scanAt s i = some (.checkOflag p) := by simp [scanAt, hscan]
      rw [hat] at hguard
      have hptr : s.openFiles i = some p := hguard.pointer _ rfl
      obtain ⟨r, hlive⟩ := hguard.live p rfl
      have hcell : s.records.cells p = .live r := cells_of_view hptr hlive
      refine Or.inl ⟨_, job, ?_, h.scansOn hscan (some .unlockHandle) fun mine hm => hm.rescan rfl ?_ ?_⟩
      · simp only [slowSyncStep, hscan, slotSyncStep, derefRecord, hcell, ok_bind]
        rfl
      · intro q hq
        cases hq
        trivial
      · intro q hq
        cases hq
    | unlockHandle =>
      obtain ⟨-, hguard⟩ := h.slots i
      have hat : scanAt s i = some .unlockHandle := by simp [scanAt, hscan]
      rw [hat] at hguard
      have hword : s.handleToFileAction i = 1 := hguard.scanRelease.1
      refine Or.inl ⟨_, job, ?_, h.scansAt hscan 0 none fun mine hm => hm.scanRelease.2⟩
      simp only [slowSyncStep, hscan, slotSyncStep, unlockHandle_eq hword]
      rfl

/-! ### Runs -/

section Runs

variable [DecidableEq T]

/-- A thread works on a slot only while the slot is its own: from the return of
`ef_open` on until it has called `ef_close`, or was told that the file could
not be opened. -/
def Custodial (s : FileTable n T) : TableLabel n T → Prop
  | .call t c => ∀ fd, c.slot? = some fd → s.custody fd = .held t
  | .foreground _ _ _ | .task _ _ | .slowSync | .setCbFunc _ | .handOver _ _ => True

instance : DecidableRel (Custodial (n := n) (T := T)) := fun s l =>
  match l with
  | .call t c => decidable_of_iff (∀ fd ∈ c.slot?, s.custody fd = .held t) Iff.rfl
  | .foreground _ _ _ | .task _ _ | .slowSync | .setCbFunc _ | .handOver _ _ => isTrue trivial

omit [DecidableEq T] in
/-- A slot goes to another thread. -/
theorem TableInv.handsOver (h : TableInv s job) (hheld : s.custody fd = .held t)
    (hidle : s.foreground t = .idle) (t' : T) : TableInv (s.setCustody fd (.held t')) job := by
  obtain ⟨hok, hguard⟩ := h.between hheld hidle
  have htouch : Touches s (s.setCustody fd (.held t')) fd none :=
    { Touches.refl s fd none with
      custody := fun _ hne => Function.update_of_ne hne _ _
      queue := by
        rintro ⟨hnodup, hmem⟩
        refine ⟨hnodup, fun fd' => ?_⟩
        by_cases hne : fd' = fd
        · subst hne
          have hleft : fd' ∉ s.fdQueue := fun hin => by cases ((hmem fd').mp hin).symm.trans hheld
          simp [setCustody, hleft]
        · simp only [setCustody, Function.update_of_ne hne]
          exact hmem fd' }
  have hcust : (s.setCustody fd (.held t')).custody fd = .held t' := Function.update_self _ _ _
  -- Nobody works on the slot.
  have hnobody : ∀ u, slot? (s.foreground u) ≠ some fd := by
    intro u hu
    cases Custody.held.inj ((h.coherent.held u fd hu).symm.trans hheld)
    rw [hidle] at hu
    cases hu
  refine h.local_of_tasks htouch .none (fun fd' hne => ?_) (fun u fd' hu => ?_) rfl ⟨?_, ?_⟩
  · unfold pcAt
    simp only [htouch.custody fd' hne]
    rfl
  · have hne : fd' ≠ fd := by
      rintro rfl
      exact hnobody u hu
    exact (htouch.custody fd' hne).trans (h.coherent.held u fd' hu)
  all_goals
    have hplace : pcAt (s.setCustody fd (.held t')) fd = .idle := by
      unfold pcAt
      rw [hcust]
      exact if_neg (hnobody t')
    rw [hplace, hcust]
  · exact hok
  · exact hguard

/-- What one step can do. -/
theorem step_cases {l : TableLabel n T} (h : TableInv s job) (hok : Custodial s l)
    (hstep : step l s = some s') :
    (∃ job', TableInv s' job') ∨ s' = { s with fault := some .uninitialised } ∧ ReadsRaw s ∨
      s' = { s with fault := some .useAfterFree } ∧ NotifiesFreed s := by
  have hfault : s.fault.isSome = false := by
    rw [h.coherent.sound]
    rfl
  have hfine : ∀ {x : Except TableFault (FileTable n T)}, s.threadStep l = some x → Fine x →
      ∃ job', TableInv s' job' := by
    rintro x hx ⟨s₁, job', rfl, hinv⟩
    simp only [step, hfault, hx, Option.map_some, Bool.false_eq_true, if_false, Option.some.injEq] at hstep
    exact ⟨job', hstep ▸ hinv⟩
  have hmoves : s.threadStep l ≠ none := by
    intro hnone
    simp [step, hfault, hnone] at hstep
  cases l with
  | call t c =>
    cases hpc : s.foreground t with
    | idle =>
      have hthread : s.threadStep (.call t c) = some (s.callStep t c) := by
        simp only [threadStep, hpc]
      exact Or.inl (hfine hthread (callStep_fine h hpc c hok))
    | _ =>
      simp [threadStep, hpc] at hmoves
  | foreground t yes bytes =>
    by_cases hidle : s.foreground t = .idle
    · simp [threadStep, hidle] at hmoves
    · have hthread : s.threadStep (.foreground t yes bytes) = some (s.foregroundStep yes bytes t) := by
        simp only [threadStep]
      exact Or.inl (hfine hthread (foregroundStep_fine yes bytes h t hidle))
  | task i bytes =>
    cases hcell : s.tasks.cells i with
    | live task =>
      obtain ⟨x, hx, hgood | ⟨rfl, hfreed⟩⟩ := taskStep_fine h bytes hcell
      · exact Or.inl (hfine hx hgood)
      · simp only [step, hfault, threadStep, hx, Option.map_some, Bool.false_eq_true, if_false,
          Option.some.injEq] at hstep
        exact Or.inr (Or.inr ⟨hstep.symm, hfreed⟩)
    | unallocated | raw => simp [threadStep, taskStep, hcell] at hmoves
  | slowSync =>
    obtain hgood | ⟨herror, hraw⟩ := slowSyncStep_cases h
    · exact Or.inl (hfine rfl hgood)
    · simp only [step, hfault, threadStep, herror, Option.map_some, Bool.false_eq_true, if_false,
        Option.some.injEq] at hstep
      exact Or.inr (Or.inl ⟨hstep.symm, hraw⟩)
  | setCbFunc set =>
    have hinv : TableInv { s with cbFunc := set } job :=
      ⟨{ h.coherent with }, fun fd => ⟨(h.slots fd).custodian, (h.slots fd).guarded⟩⟩
    exact Or.inl (hfine rfl ⟨_, job, rfl, hinv⟩)
  | handOver fd t' =>
    cases hc : s.custody fd with
    | held t =>
      cases hpc : s.foreground t with
      | idle =>
        have hthread : s.threadStep (.handOver fd t') = some (.ok (s.setCustody fd (.held t'))) := by
          simp only [threadStep, hc, hpc]
        exact Or.inl (hfine hthread ⟨_, job, rfl, h.handsOver hc hpc t'⟩)
      | _ => simp [threadStep, hc, hpc] at hmoves
    | queued | closing | lost => simp [threadStep, hc] at hmoves

end Runs

end Efio.Proofs.Evio.Table
