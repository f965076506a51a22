import Efio.Evio.Pipeline
import Efio.Lib.Transition
import Efio.Proofs.Spec.WriteFlow

/-!
# `Efio.Proofs.Evio.PipelineFlow`: the threads realise the write flow

`flow s` is the write flow of a state of the threads. The shared pieces of
code are steps of it (`pushStep_flow`, `syncStep_flow` and so on), and so
are the steps of `file_writer` and of `ef_file_write`.

`flowWith s push` is the flow with the push given, since a piece of code
does not know which thread runs it. It reads nothing of the places of the
foreground thread and of `slow_sync`.

`callStep_efWrite`, `callStep_efSync`, `callStep_efRead` and
`callStep_efClose` are what the start of each call can do.
-/

set_option autoImplicit false

namespace Efio.Proofs.Evio

open Efio.Lib
open Efio.Evio
open Efio.Evio.PipelineState
open Efio.Spec
open Efio.Proofs.Spec

variable {E : Env} {s s' : PipelineState}

/-! ### What an access needs -/

theorem derefRecord_eq_ok {u : Unit} : s.derefRecord = .ok u ↔ s.recordLive = true := by
  unfold derefRecord
  split
  · rename_i hlive
    exact ⟨fun _ => hlive, fun _ => rfl⟩
  · rename_i hlive
    exact iff_of_false (by simp) hlive

theorem derefAction_eq_ok {id : Nat} {a : FileCmd} :
    s.derefAction = .ok (id, a) ↔ s.recordLive = true ∧ s.action = .live id a := by
  unfold derefAction
  rw [bind_eq_ok]
  constructor
  · rintro ⟨_, hlive, h⟩
    refine ⟨derefRecord_eq_ok.mp hlive, ?_⟩
    split at h
    · cases h
    · cases h
    · cases h
      assumption
  · rintro ⟨hlive, hact⟩
    exact ⟨(), derefRecord_eq_ok.mpr hlive, by rw [hact]⟩

theorem derefWriteInp_eq_ok {id : Nat} {a : FileCmd} {inp : WriteOper} :
    s.derefWriteInp = .ok (id, a, inp) ↔
      s.recordLive = true ∧ s.action = .live id a ∧ a.writeInp = some inp := by
  unfold derefWriteInp
  rw [bind_eq_ok]
  constructor
  · rintro ⟨⟨id', a'⟩, hact, h⟩
    obtain ⟨hlive, hact⟩ := derefAction_eq_ok.mp hact
    simp only at h
    split at h
    · rename_i hinp
      cases h
      exact ⟨hlive, hact, hinp⟩
    · cases h
  · rintro ⟨hlive, hact, hinp⟩
    exact ⟨(id, a), derefAction_eq_ok.mpr ⟨hlive, hact⟩, by simp only [hinp]⟩

theorem testAction_eq_ok {r : Option (Nat × FileCmd)} (h : s.testAction = .ok r) :
    s.recordLive = true ∧
      ((r = none ∧ s.action = .null) ∨ ∃ id a, r = some (id, a) ∧ s.action = .live id a) := by
  unfold testAction at h
  obtain ⟨_, hlive, h⟩ := bind_eq_ok.mp h
  refine ⟨derefRecord_eq_ok.mp hlive, ?_⟩
  split at h
  · cases h
    exact Or.inl ⟨rfl, by assumption⟩
  · cases h
  · rename_i id a hact
    cases h
    exact Or.inr ⟨id, a, rfl, hact⟩

theorem derefRecord_of_live (hlive : s.recordLive = true) : s.derefRecord = .ok () :=
  derefRecord_eq_ok.mpr hlive

theorem derefAction_of_live {id : Nat} {a : FileCmd} (hlive : s.recordLive = true)
    (hact : s.action = .live id a) : s.derefAction = .ok (id, a) :=
  derefAction_eq_ok.mpr ⟨hlive, hact⟩

theorem testAction_of_null (hlive : s.recordLive = true) (hact : s.action = .null) :
    s.testAction = .ok none := by
  rw [testAction, derefRecord_of_live hlive, hact]
  rfl

theorem testAction_of_live {id : Nat} {a : FileCmd} (hlive : s.recordLive = true)
    (hact : s.action = .live id a) : s.testAction = .ok (some (id, a)) := by
  rw [testAction, derefRecord_of_live hlive, hact]
  rfl

/-! ### The start of a call -/

theorem callStep_efWrite {v : View} {buf : List UInt8} (h : s.callStep E v (.efWrite buf) = .ok s') :
    s' = s ∨ s.status = .fileOpen ∧ s' = { s with foreground := .writeSuspend buf } := by
  simp only [callStep] at h
  split at h
  · cases h
    exact .inl rfl
  · obtain ⟨_, -, h⟩ := bind_eq_ok.mp h
    split at h
    · cases h
      exact .inl rfl
    · rename_i hopen
      cases h
      exact .inr ⟨not_not.mp (not_or.mp hopen).1, rfl⟩

/-- `ef_sync` goes on when there is a write action, or one that is complete. -/
theorem callStep_efSync {v : View} (h : s.callStep E v .efSync = .ok s') :
    s' = s ∨ s.status = .fileOpen ∧ ∃ id a, s.action = .live id a ∧
      (a.actionStatus = .actionComplete ∧ s' = { s with foreground := .freeing (.acquire 0) .sync } ∨
        a.cmd = .operWrite ∧ s' = { s with foreground := .syncSuspend }) := by
  simp only [callStep] at h
  split at h
  · cases h
    exact .inl rfl
  · obtain ⟨_, -, h⟩ := bind_eq_ok.mp h
    split at h
    · cases h
      exact .inl rfl
    · rename_i hopen
      obtain ⟨r, htest, h⟩ := bind_eq_ok.mp h
      obtain ⟨-, ⟨rfl, -⟩ | ⟨id, a, rfl, hact⟩⟩ := testAction_eq_ok htest
      · cases h
        exact .inl rfl
      · simp only at h
        split at h
        · rename_i hcomplete
          cases h
          exact .inr ⟨not_not.mp hopen, id, a, hact, .inl ⟨hcomplete, rfl⟩⟩
        · split at h
          · cases h
            exact .inl rfl
          · rename_i hcmd
            cases h
            exact .inr ⟨not_not.mp hopen, id, a, hact, .inr ⟨not_not.mp hcmd, rfl⟩⟩

/-- `ef_read` returns at once, or goes on. -/
theorem callStep_efRead {v : View} {nbyte : Nat} (h : s.callStep E v (.efRead nbyte) = .ok s') :
    (∃ ret err, s.chkReadConditions E (s.see v) nbyte = .ok (some (ret, err)) ∧
        s' = s.finishRead nbyte ret err []) ∨
      s.chkReadConditions E (s.see v) nbyte = .ok none ∧ s' = { s with foreground := .readSnapshot nbyte } := by
  obtain ⟨r, hchk, h⟩ := bind_eq_ok.mp h
  cases r with
  | none =>
    cases h
    exact .inr ⟨hchk, rfl⟩
  | some r =>
    cases h
    exact .inl ⟨r.1, r.2, hchk, rfl⟩

/-- `ef_close` goes on when there is no action but a write action, or one
that is complete. -/
theorem callStep_efClose {v : View} {immediate : Bool} (h : s.callStep E v (.efClose immediate) = .ok s') :
    s' = s ∨ s.status = .fileOpen ∧
      (s.action = .null ∧ s' = { s with foreground := .syncing .lockHandle (.close immediate) } ∨
        ∃ id a, s.action = .live id a ∧ a.cmd ≠ .operClose ∧
          (a.actionStatus = .actionComplete ∧
              s' = { s with foreground := .freeing (.acquire 0) (.closeSync immediate) } ∨
            a.cmd = .operWrite ∧ s' = { s with foreground := .syncing .lockHandle (.close immediate) })) := by
  simp only [callStep] at h
  split at h
  · cases h
    exact .inl rfl
  · obtain ⟨_, -, h⟩ := bind_eq_ok.mp h
    split at h
    · cases h
      exact .inl rfl
    · rename_i hopen
      obtain ⟨r, htest, h⟩ := bind_eq_ok.mp h
      obtain ⟨-, ⟨rfl, hnull⟩ | ⟨id, a, rfl, hact⟩⟩ := testAction_eq_ok htest
      · cases h
        exact .inr ⟨not_not.mp hopen, .inl ⟨hnull, rfl⟩⟩
      · simp only at h
        split at h
        · cases h
          exact .inl rfl
        · rename_i hclose
          split at h
          · cases h
            exact .inl rfl
          · rename_i hwrite
            split at h
            · rename_i hcomplete
              cases h
              exact .inr ⟨not_not.mp hopen, .inr ⟨id, a, hact, hclose, .inl ⟨hcomplete, rfl⟩⟩⟩
            · rename_i hcomplete
              cases h
              have hcmd : a.cmd = .operWrite := by
                by_contra hcmd
                exact hwrite ⟨hcmd, hcomplete⟩
              exact .inr ⟨not_not.mp hopen, .inr ⟨id, a, hact, hclose, .inr ⟨hcmd, rfl⟩⟩⟩

/-! ### The flow of a state -/

/-- The live write action with its input. -/
def liveWrite (s : PipelineState) : Option (Nat × WriteOper) :=
  match s.recordLive, s.action with
  | true, .live id a => if a.cmd = .operWrite then a.writeInp.map (Prod.mk id) else none
  | _, _ => none

/-- The flow of `s` with the push `push`. -/
def flowWith (s : PipelineState) (push : Option PushPc) : WriteFlow :=
  { inp := liveWrite s
    queue := s.fileWriterQueue
    writer := s.fileWriter
    jobs := s.fileWrites
    push := push
    pushed := s.pushed
    executed := s.executed }

theorem liveWrite_eq_some {id : Nat} {inp : WriteOper} :
    liveWrite s = some (id, inp) ↔ s.recordLive = true ∧
      ∃ a, s.action = .live id a ∧ a.cmd = .operWrite ∧ a.writeInp = some inp := by
  unfold liveWrite
  constructor
  · intro h
    split at h
    · rename_i id' a hlive hact
      split at h
      · rename_i hcmd
        obtain ⟨inp', hinp, heq⟩ := Option.map_eq_some_iff.mp h
        cases heq
        exact ⟨hlive, a, hact, hcmd, hinp⟩
      · cases h
    · cases h
  · rintro ⟨hlive, a, hact, hcmd, hinp⟩
    simp [hlive, hact, hcmd, hinp]

/-- A live write action, as an access through `_action` finds it. -/
theorem liveWrite_of_live {id : Nat} {a : FileCmd} (hlive : s.recordLive = true)
    (hact : s.action = .live id a) :
    liveWrite s = if a.cmd = .operWrite then a.writeInp.map (Prod.mk id) else none := by
  simp only [liveWrite, hlive, hact]

theorem liveWrite_of_not_live (hact : ∀ id a, s.action ≠ .live id a) : liveWrite s = none := by
  unfold liveWrite
  split
  · rename_i id a _ h
    exact absurd h (hact id a)
  · rfl

/-- A store to the action that keeps its kind and its input. -/
theorem liveWrite_setAction {id : Nat} {a : FileCmd} (a' : FileCmd) (hlive : s.recordLive = true)
    (hact : s.action = .live id a) (hcmd : a'.cmd = a.cmd) (hinp : a'.writeInp = a.writeInp) :
    liveWrite (s.setAction id a') = liveWrite s := by
  rw [liveWrite_of_live hlive hact, liveWrite_of_live (s := s.setAction id a') hlive rfl, hcmd, hinp]

/-- The flow reads the action only through `liveWrite`. -/
theorem flowWith_congr (hinp : liveWrite s' = liveWrite s)
    (hqueue : s'.fileWriterQueue = s.fileWriterQueue) (hwriter : s'.fileWriter = s.fileWriter)
    (hjobs : s'.fileWrites = s.fileWrites) (hpushed : s'.pushed = s.pushed)
    (hexecuted : s'.executed = s.executed) (push : Option PushPc) :
    flowWith s' push = flowWith s push := by
  unfold flowWith
  rw [hinp, hqueue, hwriter, hjobs, hpushed, hexecuted]

theorem flowStep_of_eq {push : Option PushPc} (h : flowWith s' push = flowWith s push) :
    FlowStep (flowWith s push) (flowWith s' push) :=
  h ▸ .same

theorem flowWith_setAction {id : Nat} {a : FileCmd} (a' : FileCmd) (hlive : s.recordLive = true)
    (hact : s.action = .live id a) (hcmd : a'.cmd = a.cmd) (hinp : a'.writeInp = a.writeInp)
    (push : Option PushPc) : flowWith (s.setAction id a') push = flowWith s push :=
  flowWith_congr (liveWrite_setAction a' hlive hact hcmd hinp) rfl rfl rfl rfl rfl push

/-- An action that is in use by the flow is a live write action. -/
theorem liveWrite_of_busy {push : Option PushPc} (h : FlowInv (flowWith s push))
    (hbusy : ¬ (flowWith s push).Quiet) {id : Nat} {a : FileCmd} {inp : WriteOper}
    (hlive : s.recordLive = true) (hact : s.action = .live id a) (hinp : a.writeInp = some inp) :
    a.cmd = .operWrite ∧ liveWrite s = some (id, inp) := by
  obtain ⟨id', inp', hsome⟩ := h.exists_inp hbusy
  obtain ⟨-, a', hact', hcmd, -⟩ := liveWrite_eq_some.mp (show liveWrite s = some (id', inp') from hsome)
  obtain ⟨rfl, rfl⟩ := ActionPtr.live.inj (hact.symm.trans hact')
  exact ⟨hcmd, liveWrite_eq_some.mpr ⟨hlive, a, hact, hcmd, hinp⟩⟩

theorem liveWrite_setWriteInp (s : PipelineState) (id : Nat) {a : FileCmd} (hlive : s.recordLive = true)
    (hcmd : a.cmd = .operWrite) (inp : WriteOper) :
    liveWrite (s.setWriteInp id a inp) = some (id, inp) :=
  liveWrite_eq_some.mpr ⟨hlive, _, rfl, hcmd, rfl⟩

/-! ### The shared pieces of code -/

/-- A push is three steps of the flow and the store of
`low_eio_cmd_init`. -/
theorem pushStep_flow {p : PushPc} {next : Option PushPc} (h : FlowInv (flowWith s (some p)))
    (hstep : s.pushStep p = .ok (s', next)) :
    FlowStep (flowWith s (some p)) (flowWith s' next) := by
  have hbusy : ¬ (flowWith s (some p)).Quiet := fun hq => by cases hq.2.2.2
  cases p with
  | count w =>
    obtain ⟨⟨id, a, inp⟩, hd, hok⟩ := bind_eq_ok.mp hstep
    obtain ⟨hlive, hact, hinp⟩ := derefWriteInp_eq_ok.mp hd
    obtain ⟨hcmd, hsome⟩ := liveWrite_of_busy h hbusy hlive hact hinp
    cases hok
    have hflow := FlowStep.count (c := flowWith s (some (.count w))) hsome rfl
    rwa [← liveWrite_setWriteInp s id hlive hcmd] at hflow
  | enqueue w =>
    obtain ⟨⟨id, a, inp⟩, hd, hok⟩ := bind_eq_ok.mp hstep
    obtain ⟨hlive, hact, hinp⟩ := derefWriteInp_eq_ok.mp hd
    obtain ⟨hcmd, hsome⟩ := liveWrite_of_busy h hbusy hlive hact hinp
    cases hok
    have hflow := FlowStep.enqueue (c := flowWith s (some (.enqueue w))) hsome rfl
    rwa [← liveWrite_setWriteInp s id hlive hcmd] at hflow
  | init id =>
    obtain ⟨⟨id', a⟩, hd, hok⟩ := bind_eq_ok.mp hstep
    obtain ⟨hlive, hact⟩ := derefAction_eq_ok.mp hd
    cases hok
    obtain ⟨i, inp, hsome⟩ := h.exists_inp hbusy
    obtain ⟨-, a', hact', hcmd, -⟩ := liveWrite_eq_some.mp (show liveWrite s = some (i, inp) from hsome)
    obtain ⟨rfl, rfl⟩ := ActionPtr.live.inj (hact.symm.trans hact')
    rw [flowWith_setAction (lowEioCmdInit a) hlive hact hcmd.symm rfl]
    exact FlowStep.init (c := flowWith s (some (.init id))) rfl
  | post id =>
    cases hstep
    exact FlowStep.post (c := flowWith s (some (.post id))) rfl

/-- `low_ef_sync` starts a push or does nothing. -/
theorem lowEfSync_flow {next : Option PushPc} (hstep : s.lowEfSync = .ok (s', next)) :
    FlowStep (flowWith s none) (flowWith s' next) := by
  obtain ⟨r, htest, hok⟩ := bind_eq_ok.mp hstep
  obtain ⟨hlive, ⟨rfl, -⟩ | ⟨id, a, rfl, hact⟩⟩ := testAction_eq_ok htest
  · cases hok
    exact .same
  · simp only at hok
    split at hok
    · cases hok
      exact .same
    · rename_i hcmd
      split at hok
      · cases hok
      · rename_i inp hinp
        split at hok
        · cases hok
          exact .same
        · cases hok
          have hcmd' := not_not.mp hcmd
          have hsome := liveWrite_eq_some.mpr ⟨hlive, a, hact, hcmd', hinp⟩
          have hflow := FlowStep.start (c := flowWith s none) [] ⟨.fileWriteEvt, inp.wAccum⟩ hsome rfl
          rwa [← liveWrite_setWriteInp s id hlive hcmd'] at hflow

/-- `free_file_action` ends the flow of a live write action, which must be
quiet then. -/
theorem freeStep_flow {p : FreePc} {next : Option FreePc} {push : Option PushPc}
    (hquiet : p = .cleanup → liveWrite s ≠ none → (flowWith s push).Quiet)
    (hfreed : p = .setNull → s.action = .freed)
    (hstep : s.freeStep p = .ok (s', next)) : FlowStep (flowWith s push) (flowWith s' push) := by
  cases p with
  | acquire expected =>
    obtain ⟨_, -, hok⟩ := bind_eq_ok.mp hstep
    cases hok
    exact .same
  | cleanup =>
    obtain ⟨⟨id, a⟩, -, hok⟩ := bind_eq_ok.mp hstep
    simp only at hok
    split at hok
    · cases hok
    · cases hok
      have hnone : liveWrite { s with action := .freed } = none :=
        liveWrite_of_not_live fun _ _ h => by cases h
      cases hlw : liveWrite s with
      | none =>
        rw [flowWith_congr (s := s) (hnone.trans hlw.symm) rfl rfl rfl rfl rfl]
        exact .same
      | some r =>
        have hflow := FlowStep.free (c := flowWith s push) (hquiet rfl (by rw [hlw]; simp))
        rwa [← hnone] at hflow
  | setNull =>
    obtain ⟨_, -, hok⟩ := bind_eq_ok.mp hstep
    cases hok
    have hact := hfreed rfl
    have hnone : liveWrite s = none := liveWrite_of_not_live fun _ _ h => by rw [hact] at h; cases h
    have hnone' : liveWrite { s with action := .null } = none :=
      liveWrite_of_not_live fun _ _ h => by cases h
    rw [flowWith_congr (s := s) (hnone'.trans hnone.symm) rfl rfl rfl rfl rfl]
    exact .same
  | release =>
    obtain ⟨_, -, hok⟩ := bind_eq_ok.mp hstep
    cases hok
    exact .same

/-- `alloc_file_action` replaces no action. -/
theorem allocStep_flow {p : AllocPc} {oper : FileOper} {next : Option AllocPc}
    {push : Option PushPc} (hnull : p = .init → s.action = .null)
    (hstep : s.allocStep oper p = .ok (s', next)) : FlowStep (flowWith s push) (flowWith s' push) := by
  cases p with
  | acquire expected =>
    obtain ⟨_, -, hok⟩ := bind_eq_ok.mp hstep
    cases hok
    exact .same
  | init =>
    obtain ⟨_, hlive, hok⟩ := bind_eq_ok.mp hstep
    have hlive := derefRecord_eq_ok.mp hlive
    cases hok
    have hact := hnull rfl
    have hnone : liveWrite s = none := liveWrite_of_not_live fun _ _ h => by rw [hact] at h; cases h
    have hnew := liveWrite_of_live
      (s := { s with action := .live s.nextId (eioCmdInit oper), nextId := s.nextId + 1 }) hlive rfl
    by_cases hoper : oper = .operWrite
    · subst hoper
      have hflow := FlowStep.alloc (c := flowWith s push) s.nextId hnone
      unfold flowWith at hflow ⊢
      rw [hnew]
      exact hflow
    · have hother := hnew.trans (if_neg hoper)
      rw [flowWith_congr (s := s) (hother.trans hnone.symm) rfl rfl rfl rfl rfl]
      exact .same
  | release =>
    obtain ⟨_, -, hok⟩ := bind_eq_ok.mp hstep
    cases hok
    exact .same

/-- `SET_WRITE_ACTION_STATUS` is outside of the flow. -/
theorem setStep_flow {p : SetPc} {next : Option SetPc} (hstep : s.setStep p = .ok (s', next))
    (push : Option PushPc) : flowWith s' push = flowWith s push := by
  cases p with
  | readTotreq =>
    obtain ⟨r, htest, hok⟩ := bind_eq_ok.mp hstep
    obtain ⟨-, ⟨rfl, -⟩ | ⟨id, a, rfl, -⟩⟩ := testAction_eq_ok htest
    · cases hok
      rfl
    · simp only at hok
      split at hok
      · cases hok
        rfl
      · split at hok <;> cases hok
        rfl
  | compare totreq =>
    obtain ⟨⟨id, a, inp⟩, -, hok⟩ := bind_eq_ok.mp hstep
    cases hok
    rfl
  | store =>
    obtain ⟨⟨id, a⟩, hd, hok⟩ := bind_eq_ok.mp hstep
    obtain ⟨hlive, hact⟩ := derefAction_eq_ok.mp hd
    cases hok
    exact flowWith_setAction { a with actionStatus := .actionComplete } hlive hact rfl rfl push

/-- The push `sync_file_writes` is in. -/
def syncPush : SyncPc → Option PushPc
  | .lowSyncPush p | .fsyncPush p => some p
  | _ => none

/-- `sync_file_writes` holds `_write_suspended`. -/
def syncHolds : SyncPc → Bool
  | .testAction | .awaitComplete | .lowSync | .lowSyncPush _ | .fsync | .fsyncPush _
  | .resumeWrites => true
  | _ => false

/-- The rule for a step of `sync_file_writes`: outside of its two pushes it
changes nothing but the locks. Another push, `other`, can be under way only
while it does not hold `_write_suspended`. -/
theorem syncStep_rule {R : PipelineState → Option PushPc → Prop} {p : SyncPc} {next : Option SyncPc}
    {other : Option PushPc} (hother : syncHolds p = true → other = none)
    (hstep : s.syncStep p = .ok (s', next))
    (hlocks : syncPush p = none → ∀ guard suspended handle, R { s with
      preventActionMutation := guard
      writeSuspended := suspended
      handleToFileAction := handle } other)
    (hpush : ∀ q s₁ q', syncPush p = some q → other = none → s.pushStep q = .ok (s₁, q') → R s₁ q')
    (hlow : syncPush p = none → other = none → ∀ s₁ q, s.lowEfSync = .ok (s₁, q) → R s₁ q)
    (hfsync : syncPush p = none → other = none → ∀ id inp, liveWrite s = some (id, inp) →
      R s (some (.count ⟨.fileFsyncEvt, inp.wAccum⟩))) :
    R s' ((next.bind syncPush).or other) := by
  have hstay : syncPush p = none → R s other := fun hnone =>
    hlocks hnone s.preventActionMutation s.writeSuspended s.handleToFileAction
  cases p with
  | lockHandle =>
    cases hstep
    split <;> exact hlocks rfl _ _ _
  | checkFile =>
    simp only [syncStep] at hstep
    split at hstep
    · cases hstep
      exact hstay rfl
    · obtain ⟨_, -, hstep⟩ := bind_eq_ok.mp hstep
      split at hstep
      · cases hstep
        exact hstay rfl
      · split at hstep <;> cases hstep <;> exact hstay rfl
  | lockAction =>
    obtain ⟨_, -, hok⟩ := bind_eq_ok.mp hstep
    cases hok
    split <;> exact hlocks rfl _ _ _
  | suspendWrites =>
    obtain ⟨_, -, hok⟩ := bind_eq_ok.mp hstep
    cases hok
    split <;> exact hlocks rfl _ _ _
  | testAction =>
    obtain ⟨r, -, hok⟩ := bind_eq_ok.mp hstep
    split at hok
    · cases hok
      split <;> exact hstay rfl
    · cases hok
      exact hstay rfl
  | awaitComplete =>
    obtain ⟨_, -, hok⟩ := bind_eq_ok.mp hstep
    cases hok
    split <;> exact hstay rfl
  | lowSync =>
    obtain rfl := hother rfl
    obtain ⟨⟨s₁, p⟩, hsync, hok⟩ := bind_eq_ok.mp hstep
    cases hok
    have hnew := hlow rfl rfl _ _ hsync
    cases p <;> exact hnew
  | lowSyncPush p =>
    obtain rfl := hother rfl
    obtain ⟨⟨s₁, p'⟩, hp, hok⟩ := bind_eq_ok.mp hstep
    cases hok
    have hnew := hpush p _ _ rfl rfl hp
    cases p' <;> exact hnew
  | fsync =>
    obtain rfl := hother rfl
    obtain ⟨r, htest, hok⟩ := bind_eq_ok.mp hstep
    obtain ⟨hlive, ⟨rfl, -⟩ | ⟨id, a, rfl, hact⟩⟩ := testAction_eq_ok htest
    · cases hok
      exact hstay rfl
    · simp only at hok
      split at hok
      · cases hok
        exact hstay rfl
      · rename_i hcmd
        split at hok
        · cases hok
        · rename_i inp hinp
          cases hok
          exact hfsync rfl rfl id inp (liveWrite_eq_some.mpr
            ⟨hlive, a, hact, Classical.not_not.mp fun hc => hcmd (Or.inl hc), hinp⟩)
  | fsyncPush p =>
    obtain rfl := hother rfl
    obtain ⟨⟨s₁, p'⟩, hp, hok⟩ := bind_eq_ok.mp hstep
    cases hok
    have hnew := hpush p _ _ rfl rfl hp
    cases p' <;> exact hnew
  | resumeWrites =>
    obtain ⟨_, -, hok⟩ := bind_eq_ok.mp hstep
    cases hok
    exact hlocks rfl _ _ _
  | unlockAction =>
    obtain ⟨_, -, hok⟩ := bind_eq_ok.mp hstep
    cases hok
    exact hlocks rfl _ _ _
  | unlockHandle =>
    cases hstep
    exact hlocks rfl _ _ _

/-- `sync_file_writes` is two pushes. -/
theorem syncStep_flow {p : SyncPc} {next : Option SyncPc} {other : Option PushPc}
    (hother : syncHolds p = true → other = none) (h : FlowInv (flowWith s ((syncPush p).or other)))
    (hstep : s.syncStep p = .ok (s', next)) :
    FlowStep (flowWith s ((syncPush p).or other)) (flowWith s' ((next.bind syncPush).or other)) := by
  apply syncStep_rule (R := fun s₁ push => FlowStep (flowWith s ((syncPush p).or other)) (flowWith s₁ push))
    hother hstep
  · intro hnone _ _ _
    rw [hnone]
    exact .same
  · rintro q s₁ q' hq rfl hpush
    rw [hq] at h ⊢
    exact pushStep_flow h hpush
  · rintro hnone rfl s₁ q hlow
    rw [hnone]
    exact lowEfSync_flow hlow
  · rintro hnone rfl id inp hsome
    rw [hnone]
    -- The accumulator is only read.
    have hflow := FlowStep.start (c := flowWith s none) inp.wAccum
      ⟨.fileFsyncEvt, inp.wAccum⟩ hsome rfl
    rwa [← hsome] at hflow

/-- `ef_file_close` frees actions and the record. -/
theorem closeStep_flow {closeFails : Bool} {p : CloseJob} {next : Option CloseJob}
    {push : Option PushPc}
    (hquiet : (∃ k, p = .freeing .cleanup k) → liveWrite s ≠ none → (flowWith s push).Quiet)
    (hrecord : p = .freeRecord → (flowWith s push).Quiet)
    (hfreed : (∃ k, p = .freeing .setNull k) → s.action = .freed)
    (hstep : s.closeStep closeFails p = .ok (s', next)) :
    FlowStep (flowWith s push) (flowWith s' push) := by
  cases p with
  | start =>
    obtain ⟨r, htest, hok⟩ := bind_eq_ok.mp hstep
    obtain ⟨hlive, ⟨rfl, -⟩ | ⟨id, a, rfl, hact⟩⟩ := testAction_eq_ok htest
    · cases hok
      exact .same
    · cases hok
      exact flowStep_of_eq (flowWith_congr
        (liveWrite_setAction { a with actionStatus := .actionInProgress } hlive hact rfl rfl)
        rfl rfl rfl rfl rfl push)
  | publish ret =>
    obtain ⟨⟨id, a⟩, hd, hok⟩ := bind_eq_ok.mp hstep
    obtain ⟨hlive, hact⟩ := derefAction_eq_ok.mp hd
    cases hok
    exact flowStep_of_eq (flowWith_congr
      (liveWrite_setAction { a with returnValue := ret } hlive hact rfl rfl) rfl rfl rfl rfl rfl push)
  | complete =>
    obtain ⟨⟨id, a⟩, hd, hok⟩ := bind_eq_ok.mp hstep
    obtain ⟨hlive, hact⟩ := derefAction_eq_ok.mp hd
    cases hok
    rw [flowWith_setAction { a with actionStatus := .actionComplete } hlive hact rfl rfl]
    exact .same
  | closeStatus =>
    obtain ⟨_, -, hok⟩ := bind_eq_ok.mp hstep
    split at hok
    · cases hok
      exact .same
    · obtain ⟨r, -, hok⟩ := bind_eq_ok.mp hok
      split at hok
      · cases hok
        exact .same
      · split at hok
        · cases hok
          exact .same
        · split at hok <;> cases hok <;> exact .same
  | lockHandle =>
    cases hstep
    exact .same
  | cleanup =>
    simp only [closeStep] at hstep
    split at hstep
    · cases hstep
    · obtain ⟨_, -, hok⟩ := bind_eq_ok.mp hstep
      cases hok
      exact .same
  | freeing p k =>
    obtain ⟨⟨s₁, p'⟩, hfree, hok⟩ := bind_eq_ok.mp hstep
    have hflow : FlowStep (flowWith s push) (flowWith _ push) := freeStep_flow
      (fun hp => hquiet ⟨k, by rw [hp]⟩) (fun hp => hfreed ⟨k, by rw [hp]⟩) hfree
    cases p' <;> cases k <;> cases hok <;> exact hflow
  | freeRecord =>
    obtain ⟨_, -, hok⟩ := bind_eq_ok.mp hstep
    cases hok
    have hnone : liveWrite { s with recordLive := false } = none := by simp [liveWrite]
    have hflow := FlowStep.free (c := flowWith s push) (hrecord rfl)
    rwa [← hnone] at hflow
  | clearSlot =>
    cases hstep
    exact .same
  | unlockHandle =>
    cases hstep
    exact .same

/-! ### The background -/

/-- `file_writer` makes the steps of the flow. -/
theorem fileWriterStep_flow {push : Option PushPc} (h : FlowInv (flowWith s push))
    (hstep : s.fileWriterStep = some (.ok s')) :
    FlowStep (flowWith s push) (flowWith s' push) := by
  unfold fileWriterStep at hstep
  cases hpc : s.fileWriter with
  | idle =>
    simp only [hpc] at hstep
    split at hstep
    · cases hstep
    · rename_i id rest hqueue
      cases hstep
      exact FlowStep.takeReq (c := flowWith s push) hpc hqueue
    · rename_i id rest hqueue
      cases hstep
      exact FlowStep.takeCmpl (c := flowWith s push) hpc hqueue
  | reqTest id =>
    simp only [hpc, Option.some.injEq] at hstep
    obtain ⟨⟨i, a, inp⟩, hd, hok⟩ := bind_eq_ok.mp hstep
    obtain ⟨hlive, hact, hinp⟩ := derefWriteInp_eq_ok.mp hd
    obtain ⟨-, hsome⟩ := liveWrite_of_busy h (fun hq => by cases hpc.symm.trans hq.2.1) hlive hact hinp
    cases hok
    by_cases hbusy : inp.writeReqCount ≠ inp.writeCmplCount
    · rw [if_pos hbusy]
      exact FlowStep.skip (c := flowWith s push) hsome hpc hbusy
    · rw [if_neg hbusy]
      exact FlowStep.look (c := flowWith s push) hsome hpc (not_not.mp hbusy)
  | cmplCollect id =>
    simp only [hpc, Option.some.injEq] at hstep
    obtain ⟨⟨i, a, inp⟩, hd, hok⟩ := bind_eq_ok.mp hstep
    obtain ⟨hlive, hact, hinp⟩ := derefWriteInp_eq_ok.mp hd
    obtain ⟨hcmd, hsome⟩ :=
      liveWrite_of_busy h (fun hq => by cases hpc.symm.trans hq.2.1) hlive hact hinp
    cases hok
    have hflow := FlowStep.collect (c := flowWith s push) hsome hpc
    rwa [← liveWrite_setWriteInp s i hlive hcmd] at hflow
  | drain id compl got =>
    simp only [hpc, Option.some.injEq] at hstep
    obtain ⟨⟨i, a, inp⟩, hd, hok⟩ := bind_eq_ok.mp hstep
    obtain ⟨hlive, hact, hinp⟩ := derefWriteInp_eq_ok.mp hd
    obtain ⟨hcmd, hsome⟩ :=
      liveWrite_of_busy h (fun hq => by cases hpc.symm.trans hq.2.1) hlive hact hinp
    cases hqueue : inp.wQueue with
    | nil =>
      simp only [hqueue] at hok
      cases hok
      cases got with
      | true => exact FlowStep.drainEnd (c := flowWith s push) hsome hpc hqueue
      | false => exact FlowStep.drainNone (c := flowWith s push) hsome hpc hqueue
    | cons w rest =>
      simp only [hqueue] at hok
      cases hok
      have hflow := FlowStep.drain (c := flowWith s push) hsome hpc hqueue
      rwa [← liveWrite_setWriteInp s i hlive hcmd] at hflow
  | fire id compl =>
    simp only [hpc, Option.some.injEq] at hstep
    cases hstep
    exact FlowStep.fire (c := flowWith s push) hpc
  | addCmpl id compl =>
    simp only [hpc, Option.some.injEq] at hstep
    obtain ⟨⟨i, a, inp⟩, hd, hok⟩ := bind_eq_ok.mp hstep
    obtain ⟨hlive, hact, hinp⟩ := derefWriteInp_eq_ok.mp hd
    obtain ⟨hcmd, hsome⟩ :=
      liveWrite_of_busy h (fun hq => by cases hpc.symm.trans hq.2.1) hlive hact hinp
    cases hok
    have hflow := FlowStep.addCmpl (c := flowWith s push) hsome hpc
    rwa [← liveWrite_setWriteInp s i hlive hcmd] at hflow

/-- The list of tasks after the task at place `i` went on to `next`. -/
def putJob {J : Type} (jobs : List J) (i : Nat) (next : Option J) : List J :=
  next.elim (jobs.eraseIdx i) (jobs.set i)

/-- `ef_file_write` makes the steps of the flow. -/
theorem writeJobStep_flow {push : Option PushPc} (h : FlowInv (flowWith s push)) {i : Nat}
    {j : WriteJob} (hjob : s.fileWrites[i]? = some j) {next : Option WriteJob}
    (hstep : s.writeJobStep E j = .ok (s', next)) :
    FlowStep (flowWith s push)
      (flowWith { s' with fileWrites := putJob s.fileWrites i next } push) := by
  have hbusy : ¬ (flowWith s push).Quiet := fun hq => by
    have hnil : s.fileWrites = [] := hq.2.2.1
    rw [hnil] at hjob
    cases hjob
  cases j with
  | queued =>
    obtain ⟨⟨id, a, inp⟩, hd, hok⟩ := bind_eq_ok.mp hstep
    obtain ⟨hlive, hact, hinp⟩ := derefWriteInp_eq_ok.mp hd
    obtain ⟨hcmd, hsome⟩ := liveWrite_of_busy h hbusy hlive hact hinp
    cases hok
    have hflow := FlowStep.jobStart (c := flowWith s push) hsome hjob
    have hlw := liveWrite_setAction { a with actionStatus := .actionInProgress } hlive hact rfl rfl
    show FlowStep _ { flowWith s push with
      inp := liveWrite (s.setAction id { a with actionStatus := .actionInProgress })
      jobs := s.fileWrites.set i (.items id inp.bWList 0) }
    rw [hlw]
    exact hflow
  | items id rest bytes =>
    cases rest with
    | nil =>
      cases hstep
      exact FlowStep.jobEnd (c := flowWith s push) hjob
    | cons w rest =>
      obtain ⟨_, -, hok⟩ := bind_eq_ok.mp hstep
      obtain ⟨⟨file, n⟩, -, hok⟩ := bind_eq_ok.mp hok
      cases hok
      exact FlowStep.jobExec (c := flowWith s push) hjob
  | finish id bytes =>
    obtain ⟨⟨id', a⟩, hd, hok⟩ := bind_eq_ok.mp hstep
    obtain ⟨hlive, hact⟩ := derefAction_eq_ok.mp hd
    cases hok
    have hflow := FlowStep.jobFinish (c := flowWith s push) hjob
    have hlw := liveWrite_setAction
      { a with returnValue := a.returnValue + bytes, err := s.file.fd.errno } hlive hact rfl rfl
    show FlowStep _ { flowWith s push with
      inp := liveWrite (s.setAction id' { a with
        returnValue := a.returnValue + bytes
        err := s.file.fd.errno })
      jobs := s.fileWrites.set i (.post id) }
    rw [hlw]
    exact hflow
  | post id =>
    cases hstep
    exact FlowStep.jobPost (c := flowWith s push) hjob

/-- `ef_file_read` is outside of the flow. -/
theorem readJobStep_flow {j : ReadJob} {next : Option ReadJob}
    (hstep : s.readJobStep E j = .ok (s', next)) (push : Option PushPc) :
    flowWith s' push = flowWith s push := by
  cases j with
  | queued page =>
    obtain ⟨⟨id, a⟩, hd, hok⟩ := bind_eq_ok.mp hstep
    obtain ⟨hlive, hact⟩ := derefAction_eq_ok.mp hd
    cases hok
    exact flowWith_setAction { a with actionStatus := .actionInProgress } hlive hact rfl rfl push
  | load page =>
    obtain ⟨_, -, hok⟩ := bind_eq_ok.mp hstep
    cases hok
    rfl
  | publish ret err =>
    obtain ⟨⟨id, a⟩, hd, hok⟩ := bind_eq_ok.mp hstep
    obtain ⟨hlive, hact⟩ := derefAction_eq_ok.mp hd
    cases hok
    exact flowWith_setAction { a with returnValue := ret, err := err, actionStatus := .actionComplete }
      hlive hact rfl rfl push

end Efio.Proofs.Evio
