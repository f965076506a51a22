import Efio.Proofs.Evio.FileTable

/-!
# `Efio.Proofs.Evio.SlotPieces`: the code that several parties run on a slot

`free_file_action`, `EF_FILE_CLEANUP`, `sync_file_writes` and
`ef_file_close` are run by threads, by tasks and by `slow_sync`. For each of
them one lemma says that at its place it does not fail, what it touches,
and where it goes on.
-/

set_option autoImplicit false

namespace Efio.Proofs.Evio.Table

open Efio.Lib
open Efio.Evio
open Efio.Evio.FileTable

variable {n : Nat} {T : Type} {fd : Fin n} {v : SlotView n} {s s' s'' : FileTable n T}
  {job job' : Fin n → Option Nat} {own : Option Nat} {p k : Nat} {r r' : FileRecord n}
  {word : Int} {scan : Option SlotSyncPc} {mine : Bool} {t : T}

/-! ### Access -/

theorem HasRecord.openFiles (h : HasRecord fd (view s fd) p r) : s.openFiles fd = some p := h.ptr

theorem HasRecord.cells (h : HasRecord fd (view s fd) p r) : s.records.cells p = .live r := by
  have hcell : cellAt s (s.openFiles fd) = .live r := h.cell
  rwa [h.openFiles] at hcell

theorem HasRecord.derefRecord (h : HasRecord fd (view s fd) p r) : s.derefRecord p = .ok r := by
  unfold FileTable.derefRecord
  rw [h.cells]

theorem HasRecord.derefSlot (h : HasRecord fd (view s fd) p r) : s.derefSlot fd = .ok (p, r) := by
  unfold FileTable.derefSlot
  rw [h.openFiles]
  simp only [h.derefRecord, ok_bind]
  rfl

theorem Owns.none : Owns s fd none := fun _ hp => by cases hp

theorem HasRecord.owns (h : HasRecord fd (view s fd) p r) : Owns s fd (some p) := by
  intro p' hp'
  cases hp'
  exact Or.inl h.ptr

theorem derefAction_live {id : Nat} {a : FileCmd} (h : r.action = .live id a) :
    derefAction r = .ok (id, a) := by
  unfold derefAction
  rw [h]

theorem testAction_live {id : Nat} {a : FileCmd} (h : r.action = .live id a) :
    testAction r = .ok (some (id, a)) := by
  unfold testAction
  rw [h]

theorem testAction_null (h : r.action = .null) : testAction r = .ok none := by
  unfold testAction
  rw [h]

theorem opened_iff (hptr : s.openFiles fd = some p) :
    (view s fd).opened k = true ↔ s.descriptors.cells k = .live p := by
  unfold view openedFor
  simp [hptr]

/-- The record behind the pointer of a slot. -/
theorem cells_of_view {c : Cell (FileRecord n)} (hptr : (view s fd).ptr = some p)
    (hcell : (view s fd).cell = c) : s.records.cells p = c := by
  have hopen : s.openFiles fd = some p := hptr
  have hc : cellAt s (s.openFiles fd) = c := hcell
  rwa [hopen] at hc

/-- A ready record has a descriptor the system knows. -/
theorem Ready.derefFd (h : Ready (view s fd) r) (hrec : HasRecord fd (view s fd) p r) :
    ∃ k, r.fd = some k ∧ s.descriptors.cells k = .live p ∧ s.derefFd p r = .ok k := by
  obtain ⟨-, k, hk, hopened⟩ := h
  have hlive : s.descriptors.cells k = .live p := (opened_iff hrec.openFiles).mp ((hopened k).mpr rfl)
  refine ⟨k, hk, hlive, ?_⟩
  unfold FileTable.derefFd
  rw [hk]
  exact if_pos hlive

/-! ### Elementary changes -/

/-- A step on the slot `fd` that moves no thread and no task. -/
structure Inside (s s' : FileTable n T) (fd : Fin n) (own : Option Nat) : Prop where
  touches : Touches s s' fd own
  foreground : s'.foreground = s.foreground
  tasks : s'.tasks = s.tasks

theorem Inside.refl (s : FileTable n T) (fd : Fin n) (own : Option Nat) : Inside s s fd own :=
  ⟨.refl s fd own, rfl, rfl⟩

theorem Inside.trans (h : Inside s s' fd own) (h' : Inside s' s'' fd own) : Inside s s'' fd own :=
  ⟨h.touches.trans h'.touches, h'.foreground.trans h.foreground, h'.tasks.trans h.tasks⟩

/-- Another record is stored at `p`, or none. -/
theorem Inside.setCell (hptr : s.openFiles fd = some p) (c : Cell (FileRecord n))
    (hnamed : ∀ p', Named s p' → Named { s with records := s.records.set p c } p') :
    Inside s { s with records := s.records.set p c } fd (some p) where
  touches :=
    { Touches.refl s fd (some p) with
      records := fun _ _ hne => Objects.set_of_ne (fun heq => hne (congrArg some heq.symm)) c
      named := hnamed
      kept := fun hkept p' hp' => by
        by_cases hne : p' = p
        · exact ⟨fd, hptr.trans (congrArg some hne.symm)⟩
        · exact hkept p' fun hfree => hp' ((Objects.set_of_ne hne c).trans hfree) }
  foreground := rfl
  tasks := rfl

/-- The number of the file stays known, or the record is initialised. -/
theorem Inside.setRecord (hptr : s.openFiles fd = some p) (r' : FileRecord n)
    (hefFd : s.records.cells p = .raw ∨ r'.efFd ≠ none) : Inside s (s.setRecord p r') fd (some p) := by
  refine .setCell hptr (.live r') fun p' hp' => ?_
  obtain ⟨hlt, hor⟩ := hp'
  refine ⟨hlt, ?_⟩
  by_cases hne : p' = p
  · subst hne
    obtain hraw | hknown := hefFd
    · obtain hfreed | ⟨r, hlive, -⟩ := hor
      · cases hraw.symm.trans hfreed
      · cases hraw.symm.trans hlive
    · exact Or.inr ⟨r', by simp [Objects.set, hlt], hknown⟩
  · rwa [Objects.set_of_ne hne]

/-- The record is freed. -/
theorem Inside.freeRecord (hptr : s.openFiles fd = some p) :
    Inside s { s with records := s.records.set p .unallocated } fd (some p) := by
  refine .setCell hptr .unallocated fun p' hp' => ⟨hp'.1, ?_⟩
  by_cases hne : p' = p
  · subst hne
    exact Or.inl Objects.free_self
  · rw [Objects.set_of_ne hne]
    exact hp'.2

/-- The lock word of the slot changes. -/
theorem Inside.setWord (s : FileTable n T) (fd : Fin n) (w : Int) (own : Option Nat) :
    Inside s { s with handleToFileAction := Function.update s.handleToFileAction fd w } fd own where
  touches :=
    { Touches.refl s fd own with
      word := fun _ hne => Function.update_of_ne hne _ _ }
  foreground := rfl
  tasks := rfl

/-- The slot does not point to a record any more. -/
theorem Inside.clear (hshut : Shut (view s fd)) (hfreed : (view s fd).cell = .unallocated)
    (own : Option Nat) :
    Inside s { s with openFiles := Function.update s.openFiles fd none } fd own where
  touches :=
    { Touches.refl s fd own with
      openFiles := fun _ hne => Function.update_of_ne hne _ _
      slot := fun p hp => by
        cases (Function.update_self fd none s.openFiles).symm.trans hp
      backed := fun hbacked k p hk => by
        obtain ⟨fd', hfd'⟩ := hbacked k p hk
        have hne : fd' ≠ fd := by
          rintro rfl
          cases (hshut k).symm.trans ((opened_iff hfd').mpr hk)
        exact ⟨fd', (Function.update_of_ne hne _ _).trans hfd'⟩
      kept := fun hkept p hp => by
        obtain ⟨fd', hfd'⟩ := hkept p hp
        have hne : fd' ≠ fd := by
          rintro rfl
          exact hp (cells_of_view (s := s) hfd' hfreed)
        exact ⟨fd', (Function.update_of_ne hne _ _).trans hfd'⟩ }
  foreground := rfl
  tasks := rfl

/-- The custody of the slot ends without its return to `sg_fd_queue`. -/
theorem Inside.lose (hcust : s.custody fd ≠ .queued) (own : Option Nat) :
    Inside s (s.setCustody fd .lost) fd own where
  touches :=
    { Touches.refl s fd own with
      custody := fun _ hne => Function.update_of_ne hne _ _
      queue := fun ⟨hnodup, hmem⟩ => by
        refine ⟨hnodup, fun fd' => ?_⟩
        by_cases hne : fd' = fd
        · subst hne
          simp [setCustody, hmem fd', hcust]
        · simp only [setCustody, Function.update_of_ne hne]
          exact hmem fd' }
  foreground := rfl
  tasks := rfl

/-- The slot returns to `sg_fd_queue`. -/
theorem Inside.enqueue (hcust : s.custody fd ≠ .queued) (own : Option Nat) :
    Inside s { s.setCustody fd .queued with fdQueue := s.fdQueue ++ [fd] } fd own where
  touches :=
    { Touches.refl s fd own with
      custody := fun _ hne => Function.update_of_ne hne _ _
      queue := fun ⟨hnodup, hmem⟩ => by
        refine ⟨List.nodup_append.mpr ⟨hnodup, by simp, ?_⟩, fun fd' => ?_⟩
        · rintro fd' hold _ hnew rfl
          cases List.mem_singleton.mp hnew
          exact hcust ((hmem fd).mp hold)
        · by_cases hne : fd' = fd
          · subst hne
            simp [setCustody]
          · simp only [setCustody, Function.update_of_ne hne, List.mem_append, List.mem_singleton, hne,
              or_false]
            exact hmem fd' }
  foreground := rfl
  tasks := rfl

/-- The own slot after another record is stored. -/
theorem view_setCell (hptr : s.openFiles fd = some p) (hcell : s.records.cells p ≠ .unallocated)
    (c : Cell (FileRecord n)) :
    view { s with records := s.records.set p c } fd = { view s fd with cell := c } := by
  have hset : (s.records.set p c).cells p = c := Objects.set_self rfl hcell c
  unfold view cellAt
  simp only [hptr, Option.elim_some, hset]
  rfl

theorem HasRecord.view_setRecord (h : HasRecord fd (view s fd) p r) (r' : FileRecord n) :
    view (s.setRecord p r') fd = { view s fd with cell := .live r' } :=
  view_setCell h.openFiles (by simp [h.cells]) _

/-- The record is replaced by one for the same slot. -/
theorem HasRecord.set (h : HasRecord fd v p r) (hefFd : r'.efFd = r.efFd) :
    HasRecord fd { v with cell := .live r' } p r' :=
  ⟨h.ptr, rfl, hefFd.trans h.efFd⟩

/-- A record is allocated for the slot. -/
theorem Inside.publish (hptr : s.openFiles fd = none) :
    Inside s { s with
      records := s.records.malloc .raw
      openFiles := Function.update s.openFiles fd (some s.records.fresh) } fd none where
  touches :=
    { Touches.refl s fd none with
      openFiles := fun _ hne => Function.update_of_ne hne _ _
      records := fun _ hp _ => Objects.malloc_of_ne (Nat.ne_of_lt hp) _
      fresh := Nat.le_succ _
      slot := fun p hp => by
        cases (Function.update_self fd _ s.openFiles).symm.trans hp
        exact Or.inr ⟨Nat.le_refl _, Nat.lt_succ_self _⟩
      named := fun p hp => by
        refine ⟨Nat.lt_succ_of_lt hp.1, ?_⟩
        rw [Objects.malloc_of_ne (Nat.ne_of_lt hp.1)]
        exact hp.2
      backed := fun hbacked k p hk => by
        obtain ⟨fd', hfd'⟩ := hbacked k p hk
        have hne : fd' ≠ fd := by
          rintro rfl
          cases hptr.symm.trans hfd'
        exact ⟨fd', (Function.update_of_ne hne _ _).trans hfd'⟩
      kept := fun hkept p hp => by
        by_cases hnew : p = s.records.fresh
        · exact ⟨fd, hnew ▸ Function.update_self fd _ s.openFiles⟩
        · obtain ⟨fd', hfd'⟩ := hkept p fun hfree => hp ((Objects.malloc_of_ne hnew _).trans hfree)
          have hne : fd' ≠ fd := by
            rintro rfl
            cases hptr.symm.trans hfd'
          exact ⟨fd', (Function.update_of_ne hne _ _).trans hfd'⟩ }
  foreground := rfl
  tasks := rfl

theorem setCustody_self (hheld : s.custody fd = .held t) : s.setCustody fd (.held t) = s := by
  unfold setCustody
  rw [← hheld, Function.update_eq_self]

/-! ### The lock -/

theorem Guarded.any_locks (h : Guarded v word scan mine) : word = 0 ∨ word = 1 := by
  have hvalue := h.value
  split at hvalue
  · exact Or.inr hvalue
  · exact Or.inl hvalue

/-- The exchange on the free word succeeds. -/
theorem Guarded.acquire (h : Guarded v 0 scan false) (hfree : scan.any syncLocks = false) :
    Guarded v 1 scan true where
  value := by simp
  alone _ := hfree
  pointer := h.pointer
  live := h.live
  allocated hne := by cases hne

theorem Guarded.free (h : Guarded v 0 scan mine) : mine = false ∧ scan.any syncLocks = false := by
  have hvalue := h.value
  cases mine <;> cases hscan : scan.any syncLocks <;> simp [hscan] at hvalue ⊢

theorem Guarded.word_of_mine (h : Guarded v word scan true) : word = 1 := by
  have hvalue := h.value
  simpa using hvalue

/-- The custodian gives the lock back. -/
theorem Guarded.release (h : Guarded v 1 scan true) (halloc : v.ptr ≠ none → v.cell ≠ .unallocated) :
    Guarded v 0 scan false where
  value := by simp [h.alone rfl]
  alone hne := by cases hne
  pointer := h.pointer
  live := h.live
  allocated _ := halloc

/-- The record is changed. -/
theorem Guarded.setLive (h : Guarded v word scan mine) (r : FileRecord n) :
    Guarded { v with cell := .live r } word scan mine where
  value := h.value
  alone := h.alone
  pointer := h.pointer
  live _ _ := ⟨r, rfl⟩
  allocated _ _ := by simp

/-- Under the lock the custodian may change everything. -/
theorem Guarded.owned (h : Guarded v word scan true) (v' : SlotView n) : Guarded v' word scan true where
  value := h.value
  alone := h.alone
  pointer q hq := by
    have hfree := h.alone rfl
    subst hq
    cases q <;> trivial
  live q hq := by
    have hfree := h.alone rfl
    simp [hq, syncLocks] at hfree
  allocated hne := by cases hne

theorem lockHandle_free (h : s.handleToFileAction fd = 0) :
    s.lockHandle fd
      = ({ s with handleToFileAction := Function.update s.handleToFileAction fd 1 }, true) := by
  simp only [lockHandle, cas_of_eq h]

theorem lockHandle_taken (h : s.handleToFileAction fd = 1) : s.lockHandle fd = (s, false) := by
  have hne : s.handleToFileAction fd ≠ 0 := by omega
  simp only [lockHandle, cas_of_ne hne, Function.update_eq_self]

theorem unlockHandle_eq (h : s.handleToFileAction fd = 1) :
    s.unlockHandle fd = { s with handleToFileAction := Function.update s.handleToFileAction fd 0 } := by
  simp only [unlockHandle, cas_of_eq h]

/-- After a step on the slot `fd` that moves no thread and no task, the
custodian has the lock as `mine` says. -/
structure Goes (s s' : FileTable n T) (fd : Fin n) (mine : Bool) : Prop where
  inside : ∃ own, Owns s fd own ∧ Inside s s' fd own
  guarded : Guarded (view s' fd) (s'.handleToFileAction fd) (scanAt s' fd) mine

theorem Goes.stay (h : Guarded (view s fd) (s.handleToFileAction fd) (scanAt s fd) mine) :
    Goes s s fd mine :=
  ⟨⟨none, .none, .refl s fd none⟩, h⟩

/-- The record is written. -/
theorem Goes.setLive (hptr : s.openFiles fd = some p) (hcell : s.records.cells p ≠ .unallocated)
    (h : Guarded (view s fd) (s.handleToFileAction fd) (scanAt s fd) mine) (r' : FileRecord n)
    (hefFd : s.records.cells p = .raw ∨ r'.efFd ≠ none) : Goes s (s.setRecord p r') fd mine where
  inside := ⟨some p, fun _ heq => Or.inl (hptr.trans heq), .setRecord hptr r' hefFd⟩
  guarded := by
    have hview : view (s.setRecord p r') fd = { view s fd with cell := .live r' } :=
      view_setCell hptr hcell _
    rw [hview]
    exact h.setLive r'

theorem Goes.setRecord (hrec : HasRecord fd (view s fd) p r)
    (h : Guarded (view s fd) (s.handleToFileAction fd) (scanAt s fd) mine) (r' : FileRecord n)
    (hefFd : r'.efFd = r.efFd) : Goes s (s.setRecord p r') fd mine :=
  .setLive hrec.openFiles (by simp [hrec.cells]) h r' (Or.inr (by simp [hefFd, hrec.efFd]))

/-- A field that no part of the invariant looks at. -/
theorem Goes.setNextAction (h : Goes s s' fd mine) (k : Nat) : Goes s { s' with nextAction := k } fd mine := by
  obtain ⟨⟨own, hown, htouch, hfg, htasks⟩, hguard⟩ := h
  exact ⟨⟨own, hown, htouch.trans { Touches.refl s' fd own with }, hfg, htasks⟩,
    ⟨hguard.value, hguard.alone, hguard.pointer, hguard.live, hguard.allocated⟩⟩

theorem Goes.acquire (h : Guarded (view s fd) (s.handleToFileAction fd) (scanAt s fd) false)
    (hfree : s.handleToFileAction fd = 0) :
    Goes s { s with handleToFileAction := Function.update s.handleToFileAction fd 1 } fd true where
  inside := ⟨none, .none, .setWord s fd 1 none⟩
  guarded := by
    rw [hfree] at h
    simp only [Function.update_self]
    exact h.acquire h.free.2

theorem Goes.release (h : Guarded (view s fd) (s.handleToFileAction fd) (scanAt s fd) true)
    (halloc : (view s fd).ptr ≠ none → (view s fd).cell ≠ .unallocated) :
    Goes s { s with handleToFileAction := Function.update s.handleToFileAction fd 0 } fd false where
  inside := ⟨none, .none, .setWord s fd 0 none⟩
  guarded := by
    rw [h.word_of_mine] at h
    simp only [Function.update_self]
    exact h.release halloc

/-! ### `free_file_action` and `EF_FILE_CLEANUP` -/

theorem dropStep_ok {d : DropPc} (h : Dropping r d) :
    ∃ act next, s.dropStep p r d = .ok (s.setRecord p { r with action := act }, next) ∧
      match next with
      | some d' => Dropping { r with action := act } d'
      | none => act = .null := by
  cases d with
  | cleanup =>
    obtain ⟨id, a, hact⟩ := h
    refine ⟨.freed, some .setNull, ?_, rfl⟩
    simp only [dropStep, derefAction_live hact, ok_bind]
    rfl
  | setNull => exact ⟨.null, none, rfl, rfl⟩

/-- A step of `EF_FILE_CLEANUP`. -/
theorem cleanupStep_ok {c : CleanupPc} (hok : CleanupOk fd (view s fd) c)
    (hguard : Guarded (view s fd) (s.handleToFileAction fd) (scanAt s fd) (cleanupLocks c))
    (hcust : s.custody fd ≠ .queued) :
    ∃ s' next, s.cleanupStep fd c = .ok (s', next) ∧ Goes s s' fd (next.any cleanupLocks) ∧
      match next with
      | some c' => s'.custody fd = s.custody fd ∧ CleanupOk fd (view s' fd) c'
      | none => s'.custody fd = .queued ∧ (view s' fd).ptr = none := by
  cases c with
  | lockHandle =>
    obtain hfree | htaken := hguard.any_locks
    · refine ⟨_, some .testAction, ?_, .acquire hguard hfree, rfl, hok⟩
      simp only [cleanupStep, lockHandle_free hfree, if_true]
      rfl
    · refine ⟨s, some .lockHandle, ?_, .stay hguard, rfl, hok⟩
      simp only [cleanupStep, lockHandle_taken htaken, Bool.false_eq_true, if_false]
      rfl
  | testAction =>
    obtain ⟨hshut, p, r, hrec, id, a, hact⟩ := hok
    refine ⟨s, some (.freeAction .cleanup), ?_, .stay hguard, rfl, hshut, p, r, hrec, id, a, hact⟩
    simp only [cleanupStep, hrec.derefSlot, ok_bind, hact, reduceCtorEq, if_false]
    rfl
  | freeAction d =>
    obtain ⟨hshut, p, r, hrec, hdrop⟩ := hok
    obtain ⟨act, next, hstep, hnext⟩ := dropStep_ok (s := s) (p := p) hdrop
    have hview := hrec.view_setRecord { r with action := act }
    refine ⟨s.setRecord p { r with action := act }, some (next.elim .freeBuffer .freeAction), ?_, ?_, rfl,
      ?_⟩
    · simp only [cleanupStep, hrec.derefSlot, hstep, ok_bind]
      rfl
    · have hlocks : cleanupLocks (next.elim .freeBuffer .freeAction) = true := by cases next <;> rfl
      simp only [Option.any_some, hlocks]
      exact .setRecord hrec hguard _ rfl
    · rw [hview]
      cases next with
      | none => exact ⟨hshut, p, _, hrec.set rfl, hnext⟩
      | some d' => exact ⟨hshut, p, _, hrec.set rfl, hnext⟩
  | freeBuffer =>
    obtain ⟨hshut, p, r, hrec, hact⟩ := hok
    have hview := hrec.view_setRecord { r with buffer := false }
    refine ⟨s.setRecord p { r with buffer := false }, some .freeRecord, ?_, .setRecord hrec hguard _ rfl, rfl,
      ?_⟩
    · simp only [cleanupStep, hrec.derefSlot, ok_bind]
      rfl
    · rw [hview]
      exact ⟨hshut, p, _, hrec.set rfl, hact⟩
  | freeRecord =>
    obtain ⟨hshut, p, r, hrec, -⟩ := hok
    refine ⟨{ s with records := s.records.set p .unallocated }, some .clearSlot, ?_,
      ⟨⟨some p, hrec.owns, .freeRecord hrec.openFiles⟩, hguard.owned _⟩, rfl, ?_⟩
    · simp only [cleanupStep, hrec.derefSlot, ok_bind]
      rfl
    · have hptr : s.openFiles fd ≠ none := by simp [hrec.openFiles]
      refine ⟨hshut, hptr, ?_⟩
      rw [view_setCell hrec.openFiles (by simp [hrec.cells])]
  | clearSlot =>
    refine ⟨{ s with openFiles := Function.update s.openFiles fd none }, some .unlockHandle, rfl,
      ⟨⟨none, .none, .clear hok.1 hok.2.2 none⟩, hguard.owned _⟩, rfl, ?_⟩
    exact Function.update_self fd none s.openFiles
  | unlockHandle =>
    have hword : s.handleToFileAction fd = 1 := hguard.word_of_mine
    refine ⟨_, some .enqueue, ?_, .release hguard fun hptr => absurd hok hptr, rfl, hok⟩
    simp only [cleanupStep, unlockHandle_eq hword]
    rfl
  | enqueue =>
    refine ⟨{ s.setCustody fd .queued with fdQueue := s.fdQueue ++ [fd] }, none, rfl,
      ⟨⟨none, .none, .enqueue hcust none⟩, hguard⟩, ?_, hok⟩
    exact Function.update_self fd _ s.custody

/-! ### `sync_file_writes` -/

/-- A step of `sync_file_writes` of the thread with the slot. -/
theorem slotSyncStep_ok {sp : SlotSyncPc} (hrec : HasRecord fd (view s fd) p r)
    (hptr : SyncPtr (view s fd).ptr sp)
    (hguard : Guarded (view s fd) (s.handleToFileAction fd) (scanAt s fd) (syncLocks sp)) :
    ∃ s' next, s.slotSyncStep fd sp = .ok (s', next) ∧ Goes s s' fd (next.any syncLocks) ∧
      s'.custody fd = s.custody fd ∧ view s' fd = view s fd ∧
      ∀ sp', next = some sp' → SyncPtr (view s fd).ptr sp' := by
  have hopen : s.openFiles fd = some p := hrec.openFiles
  cases sp with
  | lockHandle =>
    obtain hfree | htaken := hguard.any_locks
    · refine ⟨_, some .checkFile, ?_, .acquire hguard hfree, rfl, rfl, fun _ heq => ?_⟩
      · simp only [slotSyncStep, lockHandle_free hfree, if_true]
        rfl
      · cases heq
        trivial
    · refine ⟨s, some .lockHandle, ?_, .stay hguard, rfl, rfl, fun _ heq => ?_⟩
      · simp only [slotSyncStep, lockHandle_taken htaken, Bool.false_eq_true, if_false]
        rfl
      · cases heq
        trivial
  | checkFile =>
    refine ⟨s, some (.checkStatus p), ?_, .stay hguard, rfl, rfl, fun _ heq => ?_⟩
    · simp only [slotSyncStep, hopen]
      rfl
    · cases heq
      exact hrec.ptr
  | checkStatus q =>
    cases Option.some.inj (hopen.symm.trans hptr)
    refine ⟨s, some (if r.status ≠ .fileOpen then .unlockHandle else .checkOflag p), ?_, .stay ?_, rfl,
      rfl, fun _ heq => ?_⟩
    · simp only [slotSyncStep, hrec.derefRecord, ok_bind]
      rfl
    · have hlocks : syncLocks (if r.status ≠ .fileOpen then .unlockHandle else .checkOflag p) = true := by
        split <;> rfl
      rw [Option.any_some, hlocks]
      exact hguard
    · cases heq
      split
      · trivial
      · exact hrec.ptr
  | checkOflag q =>
    cases Option.some.inj (hopen.symm.trans hptr)
    refine ⟨s, some .unlockHandle, ?_, .stay hguard, rfl, rfl, fun _ heq => ?_⟩
    · simp only [slotSyncStep, hrec.derefRecord, ok_bind]
      rfl
    · cases heq
      trivial
  | unlockHandle =>
    have hword : s.handleToFileAction fd = 1 := hguard.word_of_mine
    refine ⟨_, none, ?_, .release hguard fun _ => by simp [hrec.cell], rfl, rfl, fun _ heq => by cases heq⟩
    simp only [slotSyncStep, unlockHandle_eq hword]
    rfl

/-! ### `ef_file_close` -/

/-- The number of the file is there to be passed to the callback. -/
theorem notify_ok (hcell : s.records.cells p = .live r) (hefFd : r.efFd ≠ none) : s.notify p = .ok () := by
  obtain ⟨fd, hfd⟩ := Option.ne_none_iff_exists'.mp hefFd
  unfold notify derefRecord
  split
  · simp only [hcell, ok_bind, hfd, Option.isNone_some, Bool.false_eq_true, if_false]
  · rfl

/-- The descriptor is closed. -/
theorem Inside.closeFd (hk : s.descriptors.cells k = .live p) (fd : Fin n) :
    Inside s { s with descriptors := s.descriptors.set k .unallocated } fd (some p) where
  touches :=
    { Touches.refl s fd (some p) with
      descriptors := fun p' _ hne k' => by
        by_cases hsame : k' = k
        · subst hsame
          have hset : (s.descriptors.set k' .unallocated).cells k' = .unallocated :=
            Objects.set_self hk (by simp) _
          simp only [hset, hk, reduceCtorEq, Cell.live.injEq, false_iff]
          rintro rfl
          exact hne rfl
        · simp only [Objects.set_of_ne hsame]
      backed := fun hbacked k' p' hk' => by
        by_cases hsame : k' = k
        · subst hsame
          cases Objects.free_self.symm.trans hk'
        · exact hbacked k' p' ((Objects.set_of_ne hsame _).symm.trans hk') }
  foreground := rfl
  tasks := rfl

/-- The one descriptor of a record is closed. -/
theorem Ready.shut (h : Ready (view s fd) r) (hrec : HasRecord fd (view s fd) p r) (hk : r.fd = some k) :
    Shut (view { s with descriptors := s.descriptors.set k .unallocated } fd) := by
  obtain ⟨-, k', hk', hopened⟩ := h
  cases hk'.symm.trans hk
  intro j
  refine Bool.eq_false_iff.mpr fun hj => ?_
  have hlive : (s.descriptors.set k .unallocated).cells j = .live p :=
    (opened_iff (s := { s with descriptors := s.descriptors.set k .unallocated }) hrec.openFiles).mp hj
  by_cases hne : j = k
  · subst hne
    cases Objects.free_self.symm.trans hlive
  · rw [Objects.set_of_ne hne] at hlive
    exact hne ((hopened j).mp ((opened_iff hrec.openFiles).mpr hlive))

/-- What `ef_file_close` leaves when it has returned. -/
def Closed (s' : FileTable n T) (fd : Fin n) : Prop :=
  s'.custody fd = .queued ∧ (view s' fd).ptr = none ∨
    s'.custody fd = .lost ∧ Shut (view s' fd) ∧
      ∃ p r, HasRecord fd (view s' fd) p r ∧ r.status = .fileNotOpen ∧ r.action = .null

/-- A step of `ef_file_close`. -/
theorem closeStep_ok (closes : Bool) {pc : CloseTask n} (hok : CloseOk fd (view s fd) p pc)
    (hguard : Guarded (view s fd) (s.handleToFileAction fd) (scanAt s fd) (closeLocks pc))
    (hcust : s.custody fd ≠ .queued) :
    ∃ s' next, s.closeStep closes p pc = .ok (s', next) ∧ Goes s s' fd (next.any closeLocks) ∧
      match next with
      | some pc' => s'.custody fd = s.custody fd ∧ CloseOk fd (view s' fd) p pc'
      | none => Closed s' fd := by
  cases pc with
  | start =>
    obtain ⟨r, hrec, hready, id, a, hact, hcmd, -⟩ := hok
    refine ⟨_, some .freeBuffer, ?_,
      .setRecord hrec hguard { r with action := .live id { a with actionStatus := .actionInProgress } } rfl,
      rfl, ?_⟩
    · simp only [closeStep, hrec.derefRecord, testAction_live hact, ok_bind]
      rfl
    · rw [hrec.view_setRecord]
      exact ⟨_, hrec.set rfl, hready, id, _, rfl, hcmd, by simp⟩
  | freeBuffer =>
    obtain ⟨r, hrec, hready, hpending⟩ := hok
    refine ⟨_, some .sysClose, ?_, .setRecord hrec hguard { r with buffer := false } rfl, rfl, ?_⟩
    · simp only [closeStep, hrec.derefRecord, ok_bind]
      rfl
    · rw [hrec.view_setRecord]
      exact ⟨_, hrec.set rfl, hready, hpending⟩
  | sysClose =>
    obtain ⟨r, hrec, hready, hpending⟩ := hok
    obtain ⟨k, hfd, hk, hderef⟩ := hready.derefFd hrec
    refine ⟨{ s with descriptors := s.descriptors.set k .unallocated },
      some (.publish (if closes then 0 else -1)), ?_, ⟨⟨some p, hrec.owns, .closeFd hk fd⟩, ?_⟩,
      rfl, ?_, ?_, r, ⟨hrec.ptr, hrec.cell, hrec.efFd⟩, hpending⟩
    · simp only [closeStep, hrec.derefRecord, hderef, ok_bind]
      rfl
    · exact ⟨hguard.value, hguard.alone, hguard.pointer, hguard.live, hguard.allocated⟩
    · cases closes
      · exact Or.inr rfl
      · exact Or.inl rfl
    · exact hready.shut hrec hfd
  | publish ret =>
    obtain ⟨hret, hshut, r, hrec, id, a, hact, hcmd, hcomplete⟩ := hok
    refine ⟨_, some .setStatus, ?_,
      .setRecord hrec hguard { r with action := .live id { a with
        returnValue := ret
        err := if ret = -1 then some .eio else none } } rfl, rfl, ?_⟩
    · simp only [closeStep, hrec.derefRecord, derefAction_live hact, ok_bind]
      rfl
    · rw [hrec.view_setRecord]
      exact ⟨hshut, _, hrec.set rfl, id, _, rfl, hcmd, hcomplete, hret⟩
  | setStatus =>
    obtain ⟨hshut, r, hrec, hact⟩ := hok
    refine ⟨_, some .complete, ?_, .setRecord hrec hguard { r with status := .fileNotOpen } rfl, rfl, ?_⟩
    · simp only [closeStep, hrec.derefRecord, ok_bind]
      rfl
    · rw [hrec.view_setRecord]
      exact ⟨hshut, _, hrec.set rfl, rfl, hact⟩
  | complete =>
    obtain ⟨hshut, r, hrec, hstatus, id, a, hact, hcmd, -, hret⟩ := hok
    refine ⟨_, some .notify, ?_,
      .setRecord hrec hguard { r with action := .live id { a with actionStatus := .actionComplete } } rfl,
      rfl, ?_⟩
    · simp only [closeStep, hrec.derefRecord, derefAction_live hact, ok_bind]
      rfl
    · rw [hrec.view_setRecord]
      exact ⟨hshut, _, hrec.set rfl, hstatus, id, _, rfl, hcmd, rfl, hret⟩
  | notify =>
    have hnotify : s.notify p = .ok () := by
      obtain ⟨-, r, hrec, -⟩ := hok
      exact notify_ok hrec.cells (by simp [hrec.efFd])
    refine ⟨s, some .readFd, ?_, .stay hguard, rfl, hok⟩
    simp only [closeStep, hnotify, ok_bind]
    rfl
  | readFd =>
    obtain ⟨hshut, r, hrec, hstatus, hact⟩ := hok
    refine ⟨s, some (.statusSlot fd), ?_, .stay hguard, rfl, rfl, hshut, r, hrec, hstatus, hact⟩
    simp only [closeStep, hrec.derefRecord, hrec.efFd, ok_bind]
    rfl
  | statusSlot fd' =>
    obtain ⟨rfl, hshut, r, hrec, hstatus, hact⟩ := hok
    refine ⟨s, some (.statusAction fd'), ?_, .stay hguard, rfl, rfl, hshut, r, hrec, hstatus, hact⟩
    simp only [closeStep, hrec.openFiles, Option.isNone_some, Bool.false_eq_true, if_false]
    rfl
  | statusAction fd' =>
    obtain ⟨rfl, hshut, r, hrec, hstatus, id, a, hact, hcmd, hcomplete, hret⟩ := hok
    have hnot : ¬ (a.cmd ≠ .operClose ∨ a.actionStatus ≠ .actionComplete ∨ a.returnValue = -100) := by
      rintro (hne | hne | hne)
      · exact hne hcmd
      · exact hne hcomplete
      · obtain hret | hret := hret <;> omega
    by_cases hfailed : a.returnValue = -1
    · refine ⟨s, some (.freeAction fd' .cleanup), ?_, .stay hguard, rfl, rfl, hshut, r, hrec, hstatus, id, a,
        hact⟩
      simp only [closeStep, hrec.derefSlot, testAction_live hact, ok_bind, if_neg hnot, if_pos hfailed]
      rfl
    · refine ⟨s, some (.cleanup fd' .lockHandle), ?_, .stay hguard, rfl, rfl, hshut, p, r, hrec, id, a,
        hact⟩
      simp only [closeStep, hrec.derefSlot, testAction_live hact, ok_bind, if_neg hnot, if_neg hfailed]
      rfl
  | freeAction fd' d =>
    obtain ⟨rfl, hshut, r, hrec, hstatus, hdrop⟩ := hok
    obtain ⟨act, next, hstep, hnext⟩ := dropStep_ok (s := s) (p := p) hdrop
    have hview := hrec.view_setRecord { r with action := act }
    have hgoes : Goes s (s.setRecord p { r with action := act }) fd' false := .setRecord hrec hguard _ rfl
    cases next with
    | some d' =>
      refine ⟨_, some (.freeAction fd' d'), ?_, hgoes, rfl, rfl, ?_⟩
      · simp only [closeStep, hrec.derefSlot, hstep, ok_bind]
        rfl
      · rw [hview]
        exact ⟨hshut, _, hrec.set rfl, hstatus, hnext⟩
    | none =>
      refine ⟨(s.setRecord p { r with action := act }).setCustody fd' .lost, none, ?_,
        ⟨⟨some p, hrec.owns, (Inside.setRecord hrec.openFiles _ (Or.inr ?_)).trans (.lose ?_ _)⟩, hgoes.guarded⟩,
        Or.inr ⟨Function.update_self fd' _ s.custody, hshut, p, { r with action := act }, ?_, hstatus, hnext⟩⟩
      · simp only [closeStep, hrec.derefSlot, hstep, ok_bind]
        rfl
      · simp [hrec.efFd]
      · exact hcust
      · exact ⟨hrec.ptr, congrArg SlotView.cell hview, hrec.efFd⟩
  | cleanup fd' c =>
    obtain ⟨rfl, hclean⟩ := hok
    obtain ⟨s', next, hstep, hgoes, hnext⟩ := cleanupStep_ok hclean hguard hcust
    refine ⟨s', next.map (.cleanup fd'), ?_, ?_, ?_⟩
    · simp only [closeStep, hstep, ok_bind]
      rfl
    · cases next <;> exact hgoes
    · cases next with
      | some c' => exact ⟨hnext.1, rfl, hnext.2⟩
      | none => exact Or.inl hnext

/-! ### `ef_file_open` and `ef_file_read` -/

/-- A descriptor is opened for the record `p`. -/
theorem Inside.openFd (hptr : s.openFiles fd = some p) :
    Inside s { s with descriptors := s.descriptors.malloc (.live p) } fd (some p) where
  touches :=
    { Touches.refl s fd (some p) with
      descriptors := fun p' _ hne k' => by
        by_cases hsame : k' = s.descriptors.fresh
        · subst hsame
          have hunused : s.descriptors.cells s.descriptors.fresh = .unallocated :=
            s.descriptors.unused _ (Nat.le_refl _)
          simp only [Objects.malloc_self, hunused, reduceCtorEq, Cell.live.injEq, iff_false]
          rintro rfl
          exact hne rfl
        · simp only [Objects.malloc_of_ne hsame]
      backed := fun hbacked k' p' hk' => by
        by_cases hsame : k' = s.descriptors.fresh
        · subst hsame
          cases (Objects.malloc_self _).symm.trans hk'
          exact ⟨fd, hptr⟩
        · exact hbacked k' p' ((Objects.malloc_of_ne hsame _).symm.trans hk') }
  foreground := rfl
  tasks := rfl

theorem Shut.openFd (h : Shut (view s fd)) (hptr : s.openFiles fd = some p) (k : Nat) :
    (view { s with descriptors := s.descriptors.malloc (.live p) } fd).opened k = true
      ↔ k = s.descriptors.fresh := by
  refine (opened_iff (s := { s with descriptors := s.descriptors.malloc (.live p) }) hptr).trans ?_
  by_cases hk : k = s.descriptors.fresh
  · simp [hk]
  · have hclosed : s.descriptors.cells k ≠ .live p := fun hlive => by
      cases (h k).symm.trans ((opened_iff hptr).mpr hlive)
    simp only [Objects.malloc_of_ne hk, hclosed, hk]

/-- The task has made a step on the record `r`. While its thread can see the
status, the status stays. -/
def Went (s s' : FileTable n T) (fd : Fin n) (p : Nat) (r : FileRecord n) (mine : Bool)
    (next : DiskTask n) : Prop :=
  Goes s s' fd mine ∧ s'.custody fd = s.custody fd ∧
    ∃ r', HasRecord fd (view s' fd) p r' ∧ Working (view s' fd) p r' ((some next).filter busy) ∧
      (r.status ≠ .fileOpenAttempted → r'.status = r.status)

/-- The record is changed, and `ef_file_open` or `ef_file_read` goes on. -/
theorem Went.setRecord {next : DiskTask n} (hrec : HasRecord fd (view s fd) p r)
    (hguard : Guarded (view s fd) (s.handleToFileAction fd) (scanAt s fd) mine) (r' : FileRecord n)
    (hefFd : r'.efFd = r.efFd) (hstatus : r.status ≠ .fileOpenAttempted → r'.status = r.status)
    (hwork : Working { view s fd with cell := .live r' } p r' ((some next).filter busy)) :
    Went s (s.setRecord p r') fd p r mine next := by
  refine ⟨.setRecord hrec hguard r' hefFd, rfl, r', ?_, ?_, hstatus⟩
  · rw [hrec.view_setRecord]
    exact hrec.set hefFd
  · rw [hrec.view_setRecord]
    exact hwork

/-- A step of `ef_file_open`. -/
theorem openStep_ok (opens : Bool) {pc : OpenTask} (hrec : HasRecord fd (view s fd) p r)
    (hok : Opening (view s fd) r pc)
    (hguard : Guarded (view s fd) (s.handleToFileAction fd) (scanAt s fd) mine) :
    ∃ s' next, s.openStep opens p pc = .ok (s', some next) ∧ Went s s' fd p r mine (.efFileOpen p next) := by
  cases pc with
  | start =>
    obtain ⟨hstatus, ⟨id, a, hact, hcmd, -⟩, hshut⟩ := hok
    refine ⟨_, .sysOpen, ?_, .setRecord hrec hguard
      { r with action := .live id { a with actionStatus := .actionInProgress } } rfl (fun _ => rfl)
      ⟨rfl, hstatus, ⟨id, _, rfl, hcmd, by simp⟩, hshut⟩⟩
    simp only [openStep, hrec.derefRecord, testAction_live hact, ok_bind]
    rfl
  | sysOpen =>
    obtain ⟨hstatus, ⟨id, a, hact, hcmd, hpending⟩, hshut⟩ := hok
    cases opens with
    | false =>
      refine ⟨_, .publish, ?_, .setRecord hrec hguard { r with fd := none } rfl (fun _ => rfl)
        ⟨rfl, hstatus, ⟨id, a, hact, hcmd, hpending⟩, fun k => by simp [hshut k]⟩⟩
      simp only [openStep, hrec.derefRecord, derefAction_live hact, ok_bind, Bool.false_eq_true, if_false]
      rfl
    | true =>
      refine ⟨_, .publish, ?_, ⟨⟨some p, hrec.owns, (Inside.setRecord hrec.openFiles
          { r with fd := some s.descriptors.fresh, oflag := r.openInp.opened } (Or.inr ?_)).trans
            (.openFd ?_)⟩, ?_⟩,
        rfl, _, ⟨hrec.ptr, congrArg SlotView.cell (hrec.view_setRecord _), hrec.efFd⟩, ⟨rfl, hstatus,
          ⟨id, a, hact, hcmd, hpending⟩, fun k => ?_⟩, fun _ => rfl⟩
      · simp only [openStep, hrec.derefRecord, derefAction_live hact, ok_bind, if_true]
        rfl
      · simp [hrec.efFd]
      · exact hrec.openFiles
      · have hset := (Goes.setRecord hrec hguard
          { r with fd := some s.descriptors.fresh, oflag := r.openInp.opened } rfl).guarded
        exact ⟨hset.value, hset.alone, hset.pointer, hset.live, hset.allocated⟩
      · rw [Option.some.injEq, eq_comm (a := s.descriptors.fresh)]
        exact Shut.openFd (s := s.setRecord p _) hshut hrec.openFiles k
  | publish =>
    obtain ⟨hstatus, ⟨id, a, hact, hcmd, hpending⟩, hfd⟩ := hok
    refine ⟨_, .complete, ?_, .setRecord hrec hguard
      { r with action := .live id { a with
        returnValue := r.fd.elim (-1) fun k => k
        err := if r.fd.isNone then some .eio else none } } rfl (fun _ => rfl)
      ⟨rfl, hstatus, hfd, id, _, rfl, hcmd, hpending, rfl⟩⟩
    simp only [openStep, hrec.derefRecord, derefAction_live hact, ok_bind]
    rfl
  | complete =>
    obtain ⟨hstatus, hfd, id, a, hact, hcmd, -, hret⟩ := hok
    refine ⟨_, .setStatus, ?_, .setRecord hrec hguard
      { r with action := .live id { a with actionStatus := .actionComplete } } rfl (fun _ => rfl)
      ⟨rfl, hstatus, hfd, id, _, rfl, hcmd, rfl, hret⟩⟩
    simp only [openStep, hrec.derefRecord, derefAction_live hact, ok_bind]
    rfl
  | setStatus =>
    obtain ⟨hstatus, hfd, id, a, hact, hcmd, hcomplete, hret⟩ := hok
    refine ⟨_, .notify, ?_, .setRecord hrec hguard
      { r with status := if r.fd.isNone then .fileNotOpen else .fileOpen } rfl
      (fun hne => absurd hstatus hne) ?_⟩
    · simp only [openStep, hrec.derefRecord, ok_bind]
      rfl
    · cases hk : r.fd with
      | none =>
        refine Settled.failed rfl (fun k => ?_) ⟨id, a, hact, hcmd, hcomplete, ?_⟩
        · have hclosed : ¬ (view s fd).opened k = true := by simp [hfd k, hk]
          exact Bool.eq_false_iff.mpr hclosed
        · simpa [openValue, hk] using hret
      | some k =>
        refine Settled.opened ⟨rfl, k, rfl, fun k' => (hfd k').trans ?_⟩ ⟨id, a, hact, hcmd, hcomplete, ?_⟩
        · simp [hk, eq_comm]
        · have hvalue : a.returnValue = k := by simpa [openValue, hk] using hret
          omega
  | notify => exact absurd hok id

/-- A step of `ef_file_read`. -/
theorem readStep_ok (bytes : Option Nat) {pc : ReadTask} (hrec : HasRecord fd (view s fd) p r)
    (hok : Reading (view s fd) r pc)
    (hguard : Guarded (view s fd) (s.handleToFileAction fd) (scanAt s fd) mine) :
    ∃ s' next, s.readStep bytes p pc = .ok (s', some next) ∧ Went s s' fd p r mine (.efFileRead p next) := by
  cases pc with
  | start =>
    obtain ⟨hready, id, a, hact, hcmd, -⟩ := hok
    refine ⟨_, .load, ?_, .setRecord hrec hguard
      { r with action := .live id { a with actionStatus := .actionInProgress } } rfl (fun _ => rfl)
      ⟨rfl, hready, id, _, rfl, hcmd, by simp⟩⟩
    simp only [readStep, hrec.derefRecord, derefAction_live hact, ok_bind]
    rfl
  | load =>
    obtain ⟨hready, hpending⟩ := hok
    obtain ⟨k, -, -, hderef⟩ := hready.derefFd hrec
    refine ⟨_, .publish bytes (!r.buffer), ?_, .setRecord hrec hguard { r with buffer := true } rfl (fun _ => rfl)
      ⟨rfl, hready, hpending⟩⟩
    simp only [readStep, hrec.derefRecord, hderef, ok_bind]
    rfl
  | publish ret wasEmpty =>
    obtain ⟨hready, id, a, hact, hcmd, hpending⟩ := hok
    refine ⟨_, .complete wasEmpty, ?_, .setRecord hrec hguard
      { r with action := .live id { a with
        returnValue := ret.elim (-1) fun k => k
        err := if ret.isNone then some .eio else none } } rfl (fun _ => rfl)
      ⟨rfl, hready, id, _, rfl, hcmd, hpending⟩⟩
    simp only [readStep, hrec.derefRecord, derefAction_live hact, ok_bind]
    rfl
  | complete wasEmpty =>
    obtain ⟨hready, id, a, hact, hcmd, -⟩ := hok
    refine ⟨_, .notify wasEmpty, ?_, .setRecord hrec hguard
      { r with action := .live id { a with actionStatus := .actionComplete } } rfl (fun _ => rfl)
      (Settled.read hready ⟨id, _, rfl, hcmd, rfl, trivial⟩)⟩
    simp only [readStep, hrec.derefRecord, derefAction_live hact, ok_bind]
    rfl
  | notify wasEmpty => exact absurd hok id

end Efio.Proofs.Evio.Table
