import Efio.Proofs.Evio.DrainStep

/-!
# `Efio.Proofs.Evio.DrainRun`: up to the accepted close

`sync_file_writes`, the way of `ef_close_api` to its dispatch, and the
background keep `Draining`. `Draining.step` puts the pieces together: a
step keeps the invariant, or it is the dispatch of a close.
-/

set_option autoImplicit false

namespace Efio.Proofs.Evio

open Efio.Lib
open Efio.Evio
open Efio.Evio.PipelineState
open Efio.Spec
open Efio.Spec.Backlog
open Efio.Proofs.Spec

variable {E : Env} {s s' : PipelineState}

/-! ### `sync_file_writes` of a call -/

theorem Draining.syncCode (E : Env) (h : Draining s) {p : SyncPc} {k : AfterSync}
    (hfg : s.foreground = .syncing p k) {next : Option SyncPc} {s₁ : PipelineState}
    (hinv : PipelineInv { s₁ with foreground := next.elim (.setting .readTotreq k) (.syncing · k) })
    (hstep : s.syncStep p = .ok (s₁, next)) :
    Draining { s₁ with foreground := next.elim (.setting .readTotreq k) (.syncing · k) } := by
  have hplace : IsWrite s.action → Incomplete s.action ∧ Flushed (backlog s) p := by
    have hplace := h.place
    rwa [hfg] at hplace
  obtain ⟨hpush, hother⟩ := h.inv.locks.syncing_push hfg
  have hflow : FlowInv (flowWith s ((syncPush p).or (s.slowSync.bind syncPush))) :=
    hpush ▸ h.inv.flow
  have hframe := (syncStep_frame (isWrite_of_syncPush hflow) hstep).1
  have hpush' : pushOf { s₁ with foreground := next.elim (.setting .readTotreq k) (.syncing · k) }
      = (next.bind syncPush).or (s.slowSync.bind syncPush) := by
    rw [pushOf]
    show Option.or _ (s₁.slowSync.bind syncPush) = _
    rw [hframe.slowSync]
    cases next <;> rfl
  have hback : backlog { s₁ with foreground := next.elim (.setting .readTotreq k) (.syncing · k) }
      = backlogWith s₁ ((next.bind syncPush).or (s.slowSync.bind syncPush)) := by
    rw [backlog, hpush']
    rfl
  refine h.of_code hinv hframe ?_ ?_ (h.reads.step hframe.action) ?_
  · rw [flow, flow, hpush, hpush', ← syncStep_carried hother hflow hstep]
    rfl
  · rw [hfg]
    cases next <;> rfl
  · have hbefore : IsWrite s₁.action → Working .operWrite s.action ∧ Incomplete s₁.action ∧
        Flushed (backlogWith s ((syncPush p).or (s.slowSync.bind syncPush))) p := by
      intro hwrite
      obtain ⟨id, a, hact, hcmd⟩ := hframe.action.isWrite hwrite
      obtain ⟨hinc, hflushed⟩ := hplace ⟨id, a, hact, hcmd⟩
      rw [backlog, hpush] at hflushed
      exact ⟨.of_incomplete hinc hact hcmd, hframe.action.incomplete hinc, hflushed⟩
    rw [hback]
    cases next with
    | none =>
      refine ⟨fun hne => absurd rfl hne, fun hwrite => ?_⟩
      obtain ⟨hwork, hinc, hflushed⟩ := hbefore hwrite
      exact ⟨hinc, syncStep_flushed E h.live h.slot h.status h.writable hwork hother hflow hflushed hstep⟩
    | some q =>
      intro hwrite
      obtain ⟨hwork, hinc, hflushed⟩ := hbefore hwrite
      exact ⟨hinc, syncStep_flushed E h.live h.slot h.status h.writable hwork hother hflow hflushed hstep⟩

/-! ### The close -/

/-- `ef_close_api` asks again, or drops the action. -/
theorem Draining.closeTest (h : Draining s) {immediate closeFails : Bool}
    (hfg : s.foreground = .closeTest immediate) (hinv : PipelineInv s')
    (hstep : s.efCloseStep closeFails (.closeTest immediate) = .ok s') : Draining s' := by
  obtain ⟨hfinished, hclean⟩ : Finished (backlog s) s.action ∧
      (IsWrite s.action → EndsClean (backlog s)) := by
    have hplace := h.place
    rwa [hfg] at hplace
  have hpush : foregroundPush s.foreground = none := by rw [hfg]; rfl
  have hbytes : restOf s.foreground = [] := by rw [hfg]; rfl
  obtain ⟨r, htest, hok⟩ := bind_eq_ok.mp hstep
  obtain ⟨-, ⟨rfl, hnull⟩ | ⟨id, a, rfl, hact⟩⟩ := testAction_eq_ok htest
  · cases hok
    exact h.jump hinv rfl hpush.symm hbytes.symm
      ⟨fun hwrite => absurd hwrite (not_isWrite_of_null hnull), h.reads.nil_of_null hnull⟩
  · by_cases hcomplete : a.actionStatus = .actionComplete
    · simp only [hcomplete, ne_eq, not_true_eq_false, if_false] at hok
      cases hok
      exact h.jump hinv rfl hpush.symm hbytes.symm (h.dropComplete hact hcomplete hfinished)
    · simp only [hcomplete, ne_eq, not_false_eq_true, if_true] at hok
      cases hok
      have hinc : Incomplete s.action := by
        intro id' a' hact' _
        obtain ⟨-, rfl⟩ := ActionPtr.live.inj (hact.symm.trans hact')
        exact hcomplete
      exact h.jump hinv rfl hpush.symm hbytes.symm
        ⟨fun hne => absurd rfl hne, fun hwrite => ⟨hinc, hclean hwrite⟩⟩

theorem Draining.closeDrop (h : Draining s) {immediate closeFails : Bool}
    (hfg : s.foreground = .closeDrop immediate) (hinv : PipelineInv s')
    (hstep : s.efCloseStep closeFails (.closeDrop immediate) = .ok s') : Draining s' := by
  have hplace : (IsWrite s.action → Settled (backlog s)) ∧ s.fileReads = [] := by
    have hplace := h.place
    rwa [hfg] at hplace
  have hpush : foregroundPush s.foreground = none := by rw [hfg]; rfl
  have hbytes : restOf s.foreground = [] := by rw [hfg]; rfl
  obtain ⟨_, -, hok⟩ := bind_eq_ok.mp hstep
  by_cases hnull : s.action = .null
  · rw [if_pos hnull] at hok
    cases hok
    exact h.jump hinv rfl hpush.symm hbytes.symm ⟨hnull, hplace.2, rfl⟩
  · rw [if_neg hnull] at hok
    cases hok
    exact h.jump hinv rfl hpush.symm hbytes.symm hplace

/-! ### The background -/

theorem Draining.slowSync (E : Env) (h : Draining s) (hinv : PipelineInv s')
    (hstep : s.slowSyncStep = some (.ok s')) : Draining s' := by
  have hlocks' := hinv.locks
  obtain ⟨hslow, rfl⟩ | ⟨p, s₁, next, hslow, hsync, rfl⟩ := slowSyncStep_cases hstep
  · have hpush := pushOf_begin hslow
    have hback : backlog { s with slowSync := some .lockHandle } = backlog s := by
      rw [backlog, backlog, hpush]
      rfl
    have hflow : flow { s with slowSync := some .lockHandle } = flow s := by
      rw [flow, flow, hpush]
      rfl
    exact h.background (E := E) hinv ⟨rfl, .same⟩ rfl (hback ▸ .same) (by rw [hflow]) (Or.inl rfl)
  · obtain ⟨hpush, hother⟩ := h.inv.locks.slowSync_push hslow
    have hflow : FlowInv (flowWith s ((syncPush p).or (foregroundPush s.foreground))) :=
      hpush ▸ h.inv.flow
    have hframe := (syncStep_frame (isWrite_of_syncPush hflow) hsync).1
    have hfile : s₁.file = s.file := by rw [hframe.rest]
    have hpush' : pushOf { s₁ with slowSync := next }
        = (next.bind syncPush).or (foregroundPush s.foreground) := by
      rw [hlocks'.push_comm]
      show _ = (next.bind syncPush).or (foregroundPush s.foreground)
      rw [← hframe.foreground]
    refine h.background (E := E) hinv ⟨?_, hframe.action⟩ (by simp only [hfile]) ?_ ?_ (Or.inl hfile)
    · conv => lhs; rw [hframe.rest]
      simp only [hfile]
    · rw [backlog, backlog, hpush, hpush']
      show BacklogStep E _ (backlogWith s₁ _)
      exact syncStep_backlog hother hflow hsync
    · rw [flow, flow, hpush, hpush', ← syncStep_carried hother hflow hsync]
      rfl

theorem Draining.fileWriter (E : Env) (h : Draining s) (hinv : PipelineInv s')
    (hstep : s.fileWriterStep = some (.ok s')) : Draining s' := by
  have hframe := (fileWriterStep_frame hstep).1
  have hfile : s'.file = s.file := by rw [hframe.rest]
  have hpush : pushOf s' = pushOf s := by rw [pushOf, pushOf, hframe.foreground, hframe.slowSync]
  refine h.background (E := E) hinv ⟨?_, hframe.action⟩ (by rw [hfile]) ?_ ?_ (Or.inl hfile)
  · rw [hfile, hframe.slowSync]
    exact hframe.rest
  · rw [backlog, backlog, hpush, fileWriterStep_backlog h.inv.flow hstep]
    exact .same
  · rw [flow, flow, hpush]
    exact fileWriterStep_carried h.inv.flow hstep

theorem writeJobStep_oflag {j : WriteJob} {next : Option WriteJob}
    (hstep : s.writeJobStep E j = .ok (s', next)) : s'.file.oflag = s.file.oflag := by
  cases j with
  | queued =>
    obtain ⟨_, -, hok⟩ := bind_eq_ok.mp hstep
    cases hok
    rfl
  | items id rest bytes =>
    cases rest with
    | nil =>
      cases hstep
      rfl
    | cons w rest =>
      obtain ⟨_, -, hok⟩ := bind_eq_ok.mp hstep
      obtain ⟨⟨file, n⟩, hexec, hok⟩ := bind_eq_ok.mp hok
      cases hok
      exact execTask_oflag hexec
  | finish id bytes =>
    obtain ⟨_, -, hok⟩ := bind_eq_ok.mp hstep
    cases hok
    rfl
  | post id =>
    cases hstep
    rfl

theorem Draining.writeJob (h : Draining s) {i : Nat} {j : WriteJob}
    (hjob : s.fileWrites[i]? = some j) {next : Option WriteJob} {s₁ : PipelineState}
    (hstep : s.writeJobStep E j = .ok (s₁, next))
    (hinv : PipelineInv { s₁ with fileWrites := putJob s.fileWrites i next }) :
    Draining { s₁ with fileWrites := putJob s.fileWrites i next } := by
  have hframe := (writeJobStep_frame hstep).1
  have hslow : s₁.slowSync = s.slowSync := hframe.slowSync
  have hpush : pushOf s₁ = pushOf s := by rw [pushOf, pushOf, hframe.foreground, hslow]
  have hbase : Frame false { s with file := s₁.file, slowSync := s₁.slowSync } s₁ := by
    rw [hslow]
    exact hframe
  have hoflag := writeJobStep_oflag hstep
  refine h.background (E := E) hinv (hbase.withWrites _) hoflag ?_ ?_ (Or.inr ?_)
  · show BacklogStep E (backlogWith s (pushOf s)) (backlogWith s₁ (pushOf s₁))
    rw [hpush]
    exact writeJobStep_backlog h.inv.flow hjob hstep
  · show (flowWith s₁ (pushOf s₁)).carried = (flowWith s (pushOf s)).carried
    rw [hpush]
    exact writeJobStep_carried hstep _
  · refine isWrite_of_busy h.inv.flow fun hquiet => ?_
    have hnil : s.fileWrites = [] := hquiet.2.2.1
    rw [hnil] at hjob
    cases hjob

/-- `ef_file_read` completes its action with its last step. -/
theorem readJobStep_file {j : ReadJob} {next : Option ReadJob}
    (hstep : s.readJobStep E j = .ok (s', next)) :
    s'.file.oflag = s.file.oflag ∧ s'.file.buf.isDirty = s.file.buf.isDirty ∧
      (next ≠ none → Stores false s.action s'.action) := by
  cases j with
  | queued page =>
    obtain ⟨⟨id, a⟩, hd, hok⟩ := bind_eq_ok.mp hstep
    obtain ⟨-, hact⟩ := derefAction_eq_ok.mp hd
    cases hok
    exact ⟨rfl, rfl, fun _ => .store _ hact rfl (fun h => h) fun _ hstatus => by cases hstatus⟩
  | load page =>
    obtain ⟨_, -, hok⟩ := bind_eq_ok.mp hstep
    cases hok
    refine ⟨?_, ?_, fun _ => .same⟩
    · dsimp only
      split <;> rfl
    · dsimp only
      split <;> rfl
  | publish ret err =>
    obtain ⟨_, -, hok⟩ := bind_eq_ok.mp hstep
    cases hok
    exact ⟨rfl, rfl, fun hne => absurd rfl hne⟩

theorem putJob_none_of_length {J : Type} {jobs : List J} {i : Nat} {j : J}
    (hlength : jobs.length = 1) (hjob : jobs[i]? = some j) : putJob jobs i none = [] := by
  obtain ⟨x, rfl⟩ := List.length_eq_one_iff.mp hlength
  cases i with
  | zero => rfl
  | succ i => cases hjob

/-- A task of `ef_file_read` has a read action, and no byte is on its way
meanwhile. -/
theorem Draining.readJob (h : Draining s) {i : Nat} {j : ReadJob}
    (hjob : s.fileReads[i]? = some j) {next : Option ReadJob} {s₁ : PipelineState}
    (hstep : s.readJobStep E j = .ok (s₁, next))
    (hinv : PipelineInv { s₁ with fileReads := putJob s.fileReads i next }) :
    Draining { s₁ with fileReads := putJob s.fileReads i next } := by
  have hne : s.fileReads ≠ [] := by
    intro hnil
    rw [hnil] at hjob
    cases hjob
  obtain ⟨hlength, hwork⟩ := h.reads.resolve_left hne
  have hno := hwork.not_isWrite
  have hframe := (readJobStep_frame hstep).1
  have hno' : ¬ IsWrite s₁.action := fun hwrite => hno (hframe.action.isWrite hwrite)
  have hfg : s₁.foreground = s.foreground := hframe.foreground
  have hhistory : s₁.history = s.history := by rw [hframe.rest]
  have hslow : s₁.slowSync = s.slowSync := hframe.slowSync
  obtain ⟨hoflag, hdirty, hstores⟩ := readJobStep_file hstep
  have hflow : flow { s₁ with fileReads := putJob s.fileReads i next } = flow s := by
    have hpush : pushOf s₁ = pushOf s := by rw [pushOf, pushOf, hfg, hslow]
    show flowWith s₁ (pushOf s₁) = flowWith s (pushOf s)
    rw [hpush]
    exact readJobStep_flow hstep _
  refine h.of_frame true hinv ⟨?_, hframe.action⟩ hoflag (Or.inl hdirty) ?_ ?_ ?_
  · conv => lhs; rw [hframe.rest]
    simp only [hfg, hslow, hhistory]
  · rw [hflow]
    show (flow s).carried ++ restOf s₁.foreground = acceptedBytes s₁.history
    rw [hfg, hhistory]
    exact h.accounted
  · cases next with
    | none => exact Or.inl (putJob_none_of_length hlength hjob)
    | some j' =>
      exact Or.inr ⟨(List.length_set ..).trans hlength, (hstores (by simp)).working hwork⟩
  · show DrainsAt _ s₁.action _ s₁.foreground
    rw [hfg]
    exact h.place.of_reading hno' hwork hne

end Efio.Proofs.Evio
