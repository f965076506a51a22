import Efio.Proofs.Evio.Settling

/-!
# `Efio.Proofs.Evio.SyncLocks`: which locks are free for `slow_sync`

In the runs of `ef_write` and `ef_sync` the handle lock is taken by
`slow_sync` alone, and `_prevent_action_mutation` is 1 only while some
thread is between its acquisition and its release: a stolen guard is also
given back. So a foreground thread that is between two calls leaves
nothing locked (`Unlocked.guard_free`).

`Unlocked` also keeps that a write action has its input and that an action
of another kind is complete: `sync_file_writes` never waits for it.
-/

set_option autoImplicit false

namespace Efio.Proofs.Evio

open Efio.Lib
open Efio.Evio
open Efio.Evio.PipelineState
open Efio.Spec
open Efio.Proofs.Spec

variable {E : Env} {s s' : PipelineState}

/-! ### Definitions -/

/-- `sync_file_writes` holds the lock of the handle. -/
def holdsHandle : SyncPc → Bool
  | .lockHandle => false
  | _ => true

/-- `sync_file_writes` is behind its loop for `_prevent_action_mutation`. -/
def syncGuards : SyncPc → Bool
  | .lockHandle | .checkFile | .lockAction | .unlockHandle => false
  | _ => true

/-- `free_file_action` or `alloc_file_action` is behind the same loop. -/
def foregroundGuards : ForegroundPc → Bool
  | .freeing (.acquire _) _ | .allocating (.acquire _) _ _ => false
  | .freeing _ _ | .allocating _ _ _ => true
  | _ => false

/-- A write action with its input. -/
def WithInput (p : ActionPtr) : Prop :=
  ∃ id a, p = .live id a ∧ a.cmd = .operWrite ∧ a.writeInp.isSome = true

/-- A write action has its input, and any other action is complete. -/
structure Ready (p : ActionPtr) : Prop where
  input : IsWrite p → WithInput p
  complete : ¬ IsWrite p → ∀ id a, p = .live id a → a.actionStatus = .actionComplete

/-- What the runs with `ef_write` and `ef_sync` keep of the locks. -/
structure Unlocked (s : PipelineState) : Prop where
  handle : s.handleToFileAction = if s.slowSync.any holdsHandle then 1 else 0
  guard : s.preventActionMutation = 0 ∨ (s.preventActionMutation = 1 ∧
    (foregroundGuards s.foreground = true ∨ s.slowSync.any syncGuards = true))
  ready : Ready s.action

/-- A step leaves the two locks and `slow_sync` alone, and the action as it
is unless it is a write action with its input. -/
structure Leaves (s s' : PipelineState) : Prop where
  handle : s'.handleToFileAction = s.handleToFileAction
  guard : s'.preventActionMutation = s.preventActionMutation
  slow : s'.slowSync = s.slowSync
  action : s'.action = s.action ∨ WithInput s'.action

theorem WithInput.isWrite {p : ActionPtr} (h : WithInput p) : IsWrite p := by
  obtain ⟨id, a, hact, hcmd, -⟩ := h
  exact ⟨id, a, hact, hcmd⟩

theorem WithInput.ready {p : ActionPtr} (h : WithInput p) : Ready p :=
  ⟨fun _ => h, fun hno => absurd h.isWrite hno⟩

theorem Ready.step {p p' : ActionPtr} (h : Ready p) (hstep : p' = p ∨ WithInput p') : Ready p' := by
  obtain rfl | hinput := hstep
  · exact h
  · exact hinput.ready

theorem ready_of_not_live {p : ActionPtr} (h : ∀ id a, p ≠ .live id a) : Ready p :=
  ⟨fun ⟨id, a, heq, _⟩ => absurd heq (h id a), fun _ id a heq => absurd heq (h id a)⟩

/-- A store into a write action with its input. -/
theorem WithInput.store {p : ActionPtr} (h : WithInput p) {id : Nat} {a a' : FileCmd}
    (hact : p = .live id a) (hcmd : a'.cmd = a.cmd)
    (hinp : a'.writeInp.isSome = true ∨ a'.writeInp = a.writeInp) : WithInput (.live id a') := by
  obtain ⟨i, b, heq, hop, hsome⟩ := h
  obtain ⟨-, rfl⟩ := ActionPtr.live.inj (heq.symm.trans hact)
  refine ⟨id, a', rfl, hcmd.trans hop, ?_⟩
  obtain hnew | hold := hinp
  · exact hnew
  · rw [hold]
    exact hsome

/-- What is on its way belongs to a write action with its input. -/
theorem withInput_of_busy {push : Option PushPc} (h : FlowInv (flowWith s push))
    (hbusy : ¬ (flowWith s push).Quiet) : WithInput s.action := by
  obtain ⟨id, inp, hinp⟩ := h.exists_inp hbusy
  obtain ⟨-, a, hact, hcmd, hsome⟩ := liveWrite_eq_some.mp (show liveWrite s = some (id, inp) from hinp)
  exact ⟨id, a, hact, hcmd, by rw [hsome]; rfl⟩

/-- A step behind a foreground thread that is not inside of the guard. -/
theorem Unlocked.of_leaves (h : Unlocked s) (hpc : foregroundGuards s.foreground = false)
    (hl : Leaves s s') : Unlocked s' := by
  refine ⟨?_, ?_, h.ready.step hl.action⟩
  · rw [hl.handle, hl.slow]
    exact h.handle
  · rw [hl.guard, hl.slow]
    refine h.guard.imp_right fun ⟨hone, hin⟩ => ⟨hone, Or.inr (hin.resolve_left ?_)⟩
    rw [hpc]
    exact Bool.false_ne_true

/-- A step that does not move the foreground thread. -/
theorem Unlocked.beside (h : Unlocked s) (hl : Leaves s s') (hfg : s'.foreground = s.foreground) :
    Unlocked s' := by
  refine ⟨?_, ?_, h.ready.step hl.action⟩
  · rw [hl.handle, hl.slow]
    exact h.handle
  · rw [hl.guard, hl.slow, hfg]
    exact h.guard

/-- Between two calls only `slow_sync` may be inside of the guard. -/
theorem Unlocked.guard_free (h : Unlocked s) (hidle : s.foreground = .idle)
    (hslow : s.slowSync.any syncGuards = false) : s.preventActionMutation = 0 := by
  obtain hzero | ⟨-, hin | hin⟩ := h.guard
  · exact hzero
  · rw [hidle] at hin
    cases hin
  · exact absurd (hslow.symm.trans hin) Bool.false_ne_true

/-! ### The pieces of code -/

theorem pushStep_leaves {p : PushPc} {next : Option PushPc} (hwrite : WithInput s.action)
    (hstep : s.pushStep p = .ok (s', next)) : Leaves s s' ∧ s'.foreground = s.foreground := by
  cases p with
  | post id =>
    cases hstep
    exact ⟨⟨rfl, rfl, rfl, Or.inl rfl⟩, rfl⟩
  | init id =>
    obtain ⟨⟨i, a⟩, hd, hok⟩ := bind_eq_ok.mp hstep
    obtain ⟨-, hact⟩ := derefAction_eq_ok.mp hd
    obtain ⟨i', b, heq, -, hsome⟩ := hwrite
    obtain ⟨-, rfl⟩ := ActionPtr.live.inj (heq.symm.trans hact)
    cases hok
    exact ⟨⟨rfl, rfl, rfl, Or.inr ⟨i, _, rfl, rfl, hsome⟩⟩, rfl⟩
  | _ =>
    obtain ⟨⟨i, a, inp⟩, hd, hok⟩ := bind_eq_ok.mp hstep
    obtain ⟨-, hact, -⟩ := derefWriteInp_eq_ok.mp hd
    cases hok
    exact ⟨⟨rfl, rfl, rfl, Or.inr (hwrite.store hact rfl (Or.inl rfl))⟩, rfl⟩

theorem lowEfSync_leaves {next : Option PushPc} (hstep : s.lowEfSync = .ok (s', next)) :
    Leaves s s' ∧ s'.foreground = s.foreground := by
  obtain ⟨r, htest, hok⟩ := bind_eq_ok.mp hstep
  obtain ⟨-, ⟨rfl, -⟩ | ⟨id, a, rfl, hact⟩⟩ := testAction_eq_ok htest
  · cases hok
    exact ⟨⟨rfl, rfl, rfl, Or.inl rfl⟩, rfl⟩
  · simp only at hok
    split at hok
    · cases hok
      exact ⟨⟨rfl, rfl, rfl, Or.inl rfl⟩, rfl⟩
    · rename_i hcmd
      split at hok
      · cases hok
      · split at hok
        · cases hok
          exact ⟨⟨rfl, rfl, rfl, Or.inl rfl⟩, rfl⟩
        · cases hok
          exact ⟨⟨rfl, rfl, rfl, Or.inr ⟨id, _, rfl, not_not.mp hcmd, rfl⟩⟩, rfl⟩

theorem writeStep_leaves (hown : Ownership s) {pc : ForegroundPc}
    (hstep : s.writeStep E pc = .ok s') : Leaves s s' := by
  unfold writeStep at hstep
  split at hstep
  · obtain ⟨_, -, hok⟩ := bind_eq_ok.mp hstep
    cases hok
    exact ⟨rfl, rfl, rfl, Or.inl rfl⟩
  · obtain ⟨r, htest, hok⟩ := bind_eq_ok.mp hstep
    obtain ⟨-, ⟨rfl, -⟩ | ⟨id, a, rfl, hact⟩⟩ := testAction_eq_ok htest
    · cases hok
      exact ⟨rfl, rfl, rfl, Or.inl rfl⟩
    · simp only at hok
      split at hok
      · cases hok
        exact ⟨rfl, rfl, rfl, Or.inl rfl⟩
      · split at hok <;> cases hok <;> exact ⟨rfl, rfl, rfl, Or.inl rfl⟩
  · obtain ⟨_, -, hok⟩ := bind_eq_ok.mp hstep
    cases hok
    exact ⟨rfl, rfl, rfl, Or.inl rfl⟩
  · split at hstep
    · cases hstep
      exact ⟨rfl, rfl, rfl, Or.inl rfl⟩
    · obtain ⟨⟨id, a, inp⟩, hd, hok⟩ := bind_eq_ok.mp hstep
      obtain ⟨-, hact, hinp⟩ := derefWriteInp_eq_ok.mp hd
      have htyped := hown.typed
      rw [hact] at htyped
      have hcmd : a.cmd = .operWrite := htyped (by rw [hinp]; rfl)
      simp only at hok
      split at hok
      · cases hok
      · split at hok <;> cases hok <;> exact ⟨rfl, rfl, rfl, Or.inr ⟨id, _, rfl, hcmd, rfl⟩⟩
  · obtain ⟨_, -, hok⟩ := bind_eq_ok.mp hstep
    simp only at hok
    split at hok
    · cases hok
    · cases hok
      exact ⟨rfl, rfl, rfl, Or.inl rfl⟩
  · cases hstep
    exact ⟨rfl, rfl, rfl, Or.inl rfl⟩

theorem efSyncStep_leaves {pc : ForegroundPc} (hstep : s.efSyncStep pc = .ok s') : Leaves s s' := by
  unfold efSyncStep at hstep
  split at hstep
  · obtain ⟨_, -, hok⟩ := bind_eq_ok.mp hstep
    cases hok
    exact ⟨rfl, rfl, rfl, Or.inl rfl⟩
  · obtain ⟨⟨s₁, p⟩, hsync, hok⟩ := bind_eq_ok.mp hstep
    cases hok
    have hl := (lowEfSync_leaves hsync).1
    exact ⟨hl.handle, hl.guard, hl.slow, hl.action⟩
  · obtain ⟨_, -, hok⟩ := bind_eq_ok.mp hstep
    simp only at hok
    split at hok
    · cases hok
    · cases hok
      exact ⟨rfl, rfl, rfl, Or.inl rfl⟩
  · cases hstep
    exact ⟨rfl, rfl, rfl, Or.inl rfl⟩

/-- The release of the guard clears the word. -/
theorem guard_released (h : Unlocked s) :
    (atomicCompareExchangeStrong s.preventActionMutation 1 0).word = 0 := by
  obtain hzero | ⟨hone, -⟩ := h.guard
  · rw [hzero]
    rfl
  · rw [hone]
    rfl

/-- An attempt to take the guard sets the word, or leaves it. -/
theorem guard_attempt (w expected : Int) :
    (atomicCompareExchangeStrong w expected 1).ok = true ∧
        (atomicCompareExchangeStrong w expected 1).word = 1 ∨
      (atomicCompareExchangeStrong w expected 1).ok = false ∧
        (atomicCompareExchangeStrong w expected 1).word = w := by
  by_cases hw : w = expected
  · exact Or.inl (by rw [cas_of_eq hw]; exact ⟨rfl, rfl⟩)
  · exact Or.inr (by rw [cas_of_ne hw]; exact ⟨rfl, rfl⟩)

theorem Unlocked.free (h : Unlocked s) {p : FreePc} {k : AfterFree}
    (hfg : s.foreground = .freeing p k) {next : Option FreePc}
    (hstep : s.freeStep p = .ok (s', next)) :
    Unlocked (match next with
      | some p => { s' with foreground := .freeing p k }
      | none => s'.afterFree k) := by
  cases p with
  | acquire expected =>
    obtain ⟨_, -, hok⟩ := bind_eq_ok.mp hstep
    cases hok
    obtain ⟨htaken, hword⟩ | ⟨hfailed, hword⟩ := guard_attempt s.preventActionMutation expected
    · simp only [htaken, if_true, hword]
      exact ⟨h.handle, Or.inr ⟨rfl, Or.inl rfl⟩, h.ready⟩
    · simp only [hfailed, Bool.false_eq_true, if_false, hword]
      refine ⟨h.handle, ?_, h.ready⟩
      have hguard := h.guard
      rw [hfg] at hguard
      exact hguard
  | cleanup =>
    obtain ⟨_, -, hok⟩ := bind_eq_ok.mp hstep
    simp only at hok
    split at hok <;> cases hok
    refine ⟨h.handle, ?_, ready_of_not_live nofun⟩
    have hguard := h.guard
    rw [hfg] at hguard
    exact hguard
  | setNull =>
    obtain ⟨_, -, hok⟩ := bind_eq_ok.mp hstep
    cases hok
    refine ⟨h.handle, ?_, ready_of_not_live nofun⟩
    have hguard := h.guard
    rw [hfg] at hguard
    exact hguard
  | release =>
    obtain ⟨_, -, hok⟩ := bind_eq_ok.mp hstep
    cases hok
    have hzero := guard_released h
    cases k <;> exact ⟨h.handle, Or.inl hzero, h.ready⟩

theorem Unlocked.alloc (h : Unlocked s) {p : AllocPc} {k : AfterAlloc}
    (hfg : s.foreground = .allocating p .operWrite k) {next : Option AllocPc}
    (hstep : s.allocStep .operWrite p = .ok (s', next)) :
    Unlocked { s' with foreground := next.elim (afterAlloc k) (.allocating · .operWrite k) } := by
  cases p with
  | acquire expected =>
    obtain ⟨_, -, hok⟩ := bind_eq_ok.mp hstep
    cases hok
    obtain ⟨htaken, hword⟩ | ⟨hfailed, hword⟩ := guard_attempt s.preventActionMutation expected
    · simp only [htaken, if_true, hword]
      exact ⟨h.handle, Or.inr ⟨rfl, Or.inl rfl⟩, h.ready⟩
    · simp only [hfailed, Bool.false_eq_true, if_false, hword]
      refine ⟨h.handle, ?_, h.ready⟩
      have hguard := h.guard
      rw [hfg] at hguard
      exact hguard
  | init =>
    obtain ⟨_, -, hok⟩ := bind_eq_ok.mp hstep
    cases hok
    refine ⟨h.handle, ?_, (show WithInput _ from ⟨_, _, rfl, rfl, rfl⟩).ready⟩
    have hguard := h.guard
    rw [hfg] at hguard
    exact hguard
  | release =>
    obtain ⟨_, -, hok⟩ := bind_eq_ok.mp hstep
    cases hok
    exact ⟨h.handle, Or.inl (guard_released h), h.ready⟩

/-! ### The threads -/

theorem Unlocked.call {v : View} {c : Call} (h : Unlocked s) (hidle : s.foreground = .idle)
    (hok : WritesAndSyncs s (.call c v)) (hstep : s.callStep E v c = .ok s') : Unlocked s' := by
  have hpc : foregroundGuards s.foreground = false := by rw [hidle]; rfl
  refine h.of_leaves hpc ?_
  cases c with
  | efWrite buf => obtain rfl | ⟨-, rfl⟩ := callStep_efWrite hstep <;> exact ⟨rfl, rfl, rfl, Or.inl rfl⟩
  | efSync =>
    obtain rfl | ⟨-, id, a, -, ⟨-, rfl⟩ | ⟨-, rfl⟩⟩ := callStep_efSync hstep <;>
      exact ⟨rfl, rfl, rfl, Or.inl rfl⟩
  | efRead nbyte => exact absurd hok id
  | efClose immediate => exact absurd hok id

theorem Unlocked.foreground {closeFails : Bool} {v : View} (h : Unlocked s) (hwriting : Writing s)
    (hinv : PipelineInv s) (hstep : s.foregroundStep E closeFails v = .ok s') : Unlocked s' := by
  have hplace := hwriting.place
  unfold foregroundStep at hstep
  cases hfg : s.foreground with
  | idle =>
    simp only [hfg] at hstep
    cases hstep
    exact h
  | pushing p k =>
    simp only [hfg] at hstep
    obtain ⟨⟨s₁, next⟩, hp, hok⟩ := bind_eq_ok.mp hstep
    cases hok
    have hpush : pushOf s = some p := by
      rw [pushOf, hfg]
      rfl
    have hwrite := withInput_of_busy hinv.flow fun hq => by cases hpush.symm.trans hq.2.2.2
    have hl := (pushStep_leaves hwrite hp).1
    exact h.of_leaves (by rw [hfg]; rfl) ⟨hl.handle, hl.guard, hl.slow, hl.action⟩
  | freeing p k =>
    simp only [hfg] at hstep
    obtain ⟨⟨s₁, next⟩, hp, hok⟩ := bind_eq_ok.mp hstep
    have hfree := h.free hfg hp
    cases next <;> cases hok <;> exact hfree
  | allocating p oper k =>
    rw [hfg] at hplace
    obtain rfl : oper = .operWrite := by cases oper <;> cases k <;> first | rfl | cases hplace
    simp only [hfg] at hstep
    obtain ⟨⟨s₁, next⟩, hp, hok⟩ := bind_eq_ok.mp hstep
    cases hok
    exact h.alloc hfg hp
  | syncSuspend | syncFlush | syncResume =>
    simp only [hfg] at hstep
    exact h.of_leaves (by rw [hfg]; rfl) (efSyncStep_leaves hstep)
  | writeSuspend | writeTest | writeEnsure | writeLoop | writeResume =>
    simp only [hfg] at hstep
    exact h.of_leaves (by rw [hfg]; rfl) (writeStep_leaves hinv.own hstep)
  | _ =>
    rw [hfg] at hplace
    cases hplace

theorem fileWriterStep_leaves {push : Option PushPc} (h : FlowInv (flowWith s push))
    (hstep : s.fileWriterStep = some (.ok s')) : Leaves s s' := by
  have hwrite (hne : s.fileWriter ≠ .idle) : WithInput s.action :=
    withInput_of_busy h fun hq => hne hq.2.1
  unfold fileWriterStep at hstep
  cases hpc : s.fileWriter with
  | idle =>
    simp only [hpc] at hstep
    split at hstep <;> cases hstep <;> exact ⟨rfl, rfl, rfl, Or.inl rfl⟩
  | fire id compl =>
    simp only [hpc] at hstep
    cases hstep
    exact ⟨rfl, rfl, rfl, Or.inl rfl⟩
  | reqTest id =>
    simp only [hpc] at hstep
    obtain ⟨⟨i, a, inp⟩, -, hok⟩ := bind_eq_ok.mp (Option.some.inj hstep)
    cases hok
    exact ⟨rfl, rfl, rfl, Or.inl rfl⟩
  | drain id compl got =>
    simp only [hpc] at hstep
    obtain ⟨⟨i, a, inp⟩, hd, hok⟩ := bind_eq_ok.mp (Option.some.inj hstep)
    obtain ⟨-, hact, -⟩ := derefWriteInp_eq_ok.mp hd
    simp only at hok
    split at hok <;> cases hok
    · exact ⟨rfl, rfl, rfl, Or.inl rfl⟩
    · exact ⟨rfl, rfl, rfl, Or.inr ((hwrite (by rw [hpc]; nofun)).store hact rfl (Or.inl rfl))⟩
  | _ =>
    simp only [hpc] at hstep
    obtain ⟨⟨i, a, inp⟩, hd, hok⟩ := bind_eq_ok.mp (Option.some.inj hstep)
    obtain ⟨-, hact, -⟩ := derefWriteInp_eq_ok.mp hd
    cases hok
    exact ⟨rfl, rfl, rfl, Or.inr ((hwrite (by rw [hpc]; nofun)).store hact rfl (Or.inl rfl))⟩

theorem writeJobStep_leaves {push : Option PushPc} (h : FlowInv (flowWith s push)) {i : Nat}
    {j : WriteJob} (hjob : s.fileWrites[i]? = some j) {next : Option WriteJob}
    (hstep : s.writeJobStep E j = .ok (s', next)) : Leaves s s' := by
  have hwrite : WithInput s.action := withInput_of_busy h fun hq => by
    have hnil : s.fileWrites = [] := hq.2.2.1
    rw [hnil] at hjob
    cases hjob
  cases j with
  | queued =>
    obtain ⟨⟨i, a, inp⟩, hd, hok⟩ := bind_eq_ok.mp hstep
    obtain ⟨-, hact, -⟩ := derefWriteInp_eq_ok.mp hd
    cases hok
    exact ⟨rfl, rfl, rfl, Or.inr (hwrite.store hact rfl (Or.inr rfl))⟩
  | items id rest bytes =>
    cases rest with
    | nil =>
      cases hstep
      exact ⟨rfl, rfl, rfl, Or.inl rfl⟩
    | cons w rest =>
      obtain ⟨_, -, hok⟩ := bind_eq_ok.mp hstep
      obtain ⟨⟨file, n⟩, -, hok⟩ := bind_eq_ok.mp hok
      cases hok
      exact ⟨rfl, rfl, rfl, Or.inl rfl⟩
  | finish id bytes =>
    obtain ⟨⟨i, a⟩, hd, hok⟩ := bind_eq_ok.mp hstep
    obtain ⟨-, hact⟩ := derefAction_eq_ok.mp hd
    cases hok
    exact ⟨rfl, rfl, rfl, Or.inr (hwrite.store hact rfl (Or.inr rfl))⟩
  | post id =>
    cases hstep
    exact ⟨rfl, rfl, rfl, Or.inl rfl⟩

/-- A push of `slow_sync` belongs to a write action with its input. -/
theorem withInput_of_push (h : PipelineInv s) {p : SyncPc} (hslow : s.slowSync = some p)
    (hpush : syncPush p ≠ none) : WithInput s.action :=
  withInput_of_busy h.flow fun hq => hpush (by
    have hnone : pushOf s = none := hq.2.2.2
    rw [h.locks.push_comm, hslow] at hnone
    exact (Option.or_eq_none_iff.mp hnone).1)

/-- A step of `sync_file_writes` that leaves the locks alone. -/
theorem Unlocked.syncGoto (h : Unlocked s) {p : SyncPc} (hslow : s.slowSync = some p)
    (hl : Leaves s s') (hfg : s'.foreground = s.foreground) {q : SyncPc}
    (hhandle : holdsHandle q = holdsHandle p) (hguards : syncGuards q = syncGuards p) :
    Unlocked { s' with slowSync := some q } := by
  refine ⟨?_, ?_, h.ready.step hl.action⟩
  · have hbefore := h.handle
    rw [hslow, Option.any_some, ← hhandle] at hbefore
    exact hl.handle.trans hbefore
  · have hbefore := h.guard
    rw [hslow, Option.any_some, ← hguards, ← hl.guard, ← hfg] at hbefore
    exact hbefore

theorem Unlocked.slowSync (h : Unlocked s) (hinv : PipelineInv s)
    (hstep : s.slowSyncStep = some (.ok s')) : Unlocked s' := by
  obtain ⟨hslow, rfl⟩ | ⟨p, s₁, next, hslow, hsync, rfl⟩ := slowSyncStep_cases hstep
  · refine ⟨?_, ?_, h.ready⟩
    · have hbefore := h.handle
      rw [hslow] at hbefore
      exact hbefore
    · have hbefore := h.guard
      rw [hslow] at hbefore
      exact hbefore
  have hwrite := withInput_of_push hinv hslow
  have hhandle := h.handle
  have hguard := h.guard
  rw [hslow, Option.any_some] at hhandle hguard
  cases p with
  | lockHandle =>
    cases hsync
    have hzero : s.handleToFileAction = 0 := hhandle
    rw [cas_of_eq hzero]
    exact ⟨rfl, hguard, h.ready⟩
  | checkFile =>
    simp only [syncStep] at hsync
    split at hsync
    · cases hsync
      exact ⟨hhandle, hguard, h.ready⟩
    · obtain ⟨_, -, hsync⟩ := bind_eq_ok.mp hsync
      split at hsync
      · cases hsync
        exact ⟨hhandle, hguard, h.ready⟩
      · split at hsync <;> cases hsync <;> exact ⟨hhandle, hguard, h.ready⟩
  | lockAction =>
    obtain ⟨_, -, hok⟩ := bind_eq_ok.mp hsync
    cases hok
    obtain ⟨htaken, hword⟩ | ⟨hfailed, hword⟩ := guard_attempt s.preventActionMutation 0
    · simp only [htaken, if_true, hword]
      exact ⟨hhandle, Or.inr ⟨rfl, Or.inr rfl⟩, h.ready⟩
    · simp only [hfailed, Bool.false_eq_true, if_false, hword]
      exact ⟨hhandle, hguard, h.ready⟩
  | suspendWrites =>
    obtain ⟨_, -, hok⟩ := bind_eq_ok.mp hsync
    cases hok
    split <;> exact ⟨hhandle, hguard, h.ready⟩
  | testAction =>
    obtain ⟨r, -, hok⟩ := bind_eq_ok.mp hsync
    split at hok <;> cases hok
    · split <;> exact ⟨hhandle, hguard, h.ready⟩
    · exact ⟨hhandle, hguard, h.ready⟩
  | awaitComplete =>
    obtain ⟨r, -, hok⟩ := bind_eq_ok.mp hsync
    cases hok
    split <;> exact ⟨hhandle, hguard, h.ready⟩
  | lowSync =>
    obtain ⟨⟨s₂, q⟩, hlow, hok⟩ := bind_eq_ok.mp hsync
    cases hok
    obtain ⟨hl, hfg⟩ := lowEfSync_leaves hlow
    cases q <;> exact h.syncGoto hslow hl hfg rfl rfl
  | lowSyncPush q =>
    obtain ⟨⟨s₂, q'⟩, hpush, hok⟩ := bind_eq_ok.mp hsync
    cases hok
    obtain ⟨hl, hfg⟩ := pushStep_leaves (hwrite (by simp [syncPush])) hpush
    cases q' <;> exact h.syncGoto hslow hl hfg rfl rfl
  | fsync =>
    obtain ⟨r, -, hok⟩ := bind_eq_ok.mp hsync
    split at hok
    · split at hok
      · cases hok
        exact ⟨hhandle, hguard, h.ready⟩
      · split at hok <;> cases hok
        exact ⟨hhandle, hguard, h.ready⟩
    · cases hok
      exact ⟨hhandle, hguard, h.ready⟩
  | fsyncPush q =>
    obtain ⟨⟨s₂, q'⟩, hpush, hok⟩ := bind_eq_ok.mp hsync
    cases hok
    obtain ⟨hl, hfg⟩ := pushStep_leaves (hwrite (by simp [syncPush])) hpush
    cases q' <;> exact h.syncGoto hslow hl hfg rfl rfl
  | resumeWrites =>
    obtain ⟨_, -, hok⟩ := bind_eq_ok.mp hsync
    cases hok
    exact ⟨hhandle, hguard, h.ready⟩
  | unlockAction =>
    obtain ⟨_, -, hok⟩ := bind_eq_ok.mp hsync
    cases hok
    exact ⟨hhandle, Or.inl (guard_released h), h.ready⟩
  | unlockHandle =>
    cases hsync
    have hone : s.handleToFileAction = 1 := hhandle
    rw [cas_of_eq hone]
    exact ⟨rfl, hguard, h.ready⟩

theorem Unlocked.step {l : PipelineLabel} (h : Unlocked s) (hwriting : Writing s)
    (hinv : PipelineInv s) (hok : WritesAndSyncs s l) (hstep : PipelineState.step E l s = some s') :
    Unlocked s' := by
  obtain ⟨-, hrun | ⟨e, -, rfl⟩⟩ := step_eq_some hstep
  · cases l with
    | call c v =>
      obtain ⟨hidle, hcall⟩ := threadStep_call hrun
      exact h.call hidle hok hcall
    | foreground v closeFails => exact h.foreground hwriting hinv (threadStep_foreground hrun).2
    | slowSync => exact h.slowSync hinv hrun
    | fileWriter =>
      exact h.beside (fileWriterStep_leaves hinv.flow hrun) (fileWriterStep_frame hrun).1.foreground
    | writeJob i =>
      simp only [threadStep] at hrun
      obtain ⟨j, s₁, next, hjob, hj, rfl⟩ := jobStep_eq_some hrun
      have hl := writeJobStep_leaves hinv.flow hjob hj
      exact h.beside ⟨hl.handle, hl.guard, hl.slow, hl.action⟩ (writeJobStep_frame hj).1.foreground
    | readJob i => cases (threadStep_readJob_nil hwriting.reads i).symm.trans hrun
    | closeJob i closeFails => cases (threadStep_closeJob_nil hwriting.closes i closeFails).symm.trans hrun
  · exact ⟨h.handle, h.guard, h.ready⟩

theorem unlocked_opened (f : EfFile) (collected : Bool) : Unlocked (opened f collected) := by
  refine ⟨rfl, Or.inl rfl, ?_⟩
  cases collected with
  | true => exact ready_of_not_live nofun
  | false =>
    refine ⟨fun ⟨id, a, heq, hcmd⟩ => ?_, fun _ id a heq => ?_⟩
    · cases heq
      cases hcmd
    · cases heq
      rfl

end Efio.Proofs.Evio
