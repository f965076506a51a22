import Efio.Proofs.Evio.PipelineBacklog
import Efio.Spec.Accepted

/-!
# `Efio.Proofs.Evio.Carried`: no byte gets lost in the write flow

The background moves bytes from the accumulator to the tasks and on, but
neither adds nor drops one: each piece of code keeps `carried`. Only the
loop of `low_ef_write` adds to it, and `free_file_action` takes away what
the action still has in its accumulator.
-/

set_option autoImplicit false

namespace Efio.Proofs.Evio

open Efio.Lib
open Efio.Evio
open Efio.Evio.PipelineState
open Efio.Spec
open Efio.Proofs.Spec

variable {E : Env} {s s' : PipelineState}

/-! ### Reading `carried` -/

theorem carried_of_live {id : Nat} {inp : WriteOper} (hsome : liveWrite s = some (id, inp))
    (push : Option PushPc) : (flowWith s push).carried
      = payload (s.pushed ++ countedTask push ++ (waitingTask push).toList) ++ inp.wAccum := by
  simp only [WriteFlow.carried, flowWith, hsome, Option.map_some, Option.getD_some]

theorem carried_of_none (hnone : liveWrite s = none) (push : Option PushPc) :
    (flowWith s push).carried
      = payload (s.pushed ++ countedTask push ++ (waitingTask push).toList) := by
  simp only [WriteFlow.carried, flowWith, hnone, Option.map_none, Option.getD_none, List.append_nil]

theorem payload_append (ws vs : List WriteTask) : payload (ws ++ vs) = payload ws ++ payload vs :=
  List.flatMap_append

theorem payload_singleton (w : WriteTask) : payload [w] = taskPayload w :=
  List.flatMap_singleton ..

/-! ### The pieces of code -/

theorem pushStep_carried {p : PushPc} {next : Option PushPc} (h : FlowInv (flowWith s (some p)))
    (hstep : s.pushStep p = .ok (s', next)) :
    (flowWith s' next).carried = (flowWith s (some p)).carried := by
  have hbusy : ¬ (flowWith s (some p)).Quiet := fun hq => by cases hq.2.2.2
  cases p with
  | count w =>
    obtain ⟨⟨id, a, inp⟩, hd, hok⟩ := bind_eq_ok.mp hstep
    obtain ⟨hlive, hact, hinp⟩ := derefWriteInp_eq_ok.mp hd
    obtain ⟨hcmd, hsome⟩ := liveWrite_of_busy h hbusy hlive hact hinp
    cases hok
    rw [carried_of_live (liveWrite_setWriteInp s id hlive hcmd _), carried_of_live hsome]
    simp only [countedTask, waitingTask, Option.toList_none, Option.toList_some, List.append_nil]
    rfl
  | enqueue w =>
    obtain ⟨⟨id, a, inp⟩, hd, hok⟩ := bind_eq_ok.mp hstep
    obtain ⟨hlive, hact, hinp⟩ := derefWriteInp_eq_ok.mp hd
    obtain ⟨hcmd, hsome⟩ := liveWrite_of_busy h hbusy hlive hact hinp
    cases hok
    have hnew := liveWrite_setWriteInp s id hlive hcmd { inp with wQueue := inp.wQueue ++ [w] }
    rw [carried_of_live hsome, carried_of_live (s := { s.setWriteInp id a
      { inp with wQueue := inp.wQueue ++ [w] } with pushed := s.pushed ++ [w] }) hnew]
    simp only [countedTask, waitingTask, Option.toList_none, List.append_nil]
  | init id =>
    obtain ⟨⟨id', a⟩, hd, hok⟩ := bind_eq_ok.mp hstep
    obtain ⟨hlive, hact⟩ := derefAction_eq_ok.mp hd
    cases hok
    obtain ⟨i, a₀, hact₀, hcmd⟩ := isWrite_of_push h fun h => by cases h
    obtain ⟨-, rfl⟩ := ActionPtr.live.inj (hact₀.symm.trans hact)
    rw [flowWith_setAction (lowEioCmdInit a₀) hlive hact hcmd.symm rfl]
    rfl
  | post id =>
    cases hstep
    rfl

/-- A filled accumulator becomes the task that is about to be pushed. -/
theorem lowEfSync_carried {next : Option PushPc} (hstep : s.lowEfSync = .ok (s', next)) :
    (flowWith s' next).carried = (flowWith s none).carried := by
  obtain ⟨r, htest, hok⟩ := bind_eq_ok.mp hstep
  obtain ⟨hlive, ⟨rfl, -⟩ | ⟨id, a, rfl, hact⟩⟩ := testAction_eq_ok htest
  · cases hok
    rfl
  · simp only at hok
    split at hok
    · cases hok
      rfl
    · rename_i hcmd
      split at hok
      · cases hok
      · rename_i inp hinp
        split at hok
        · cases hok
          rfl
        · cases hok
          have hcmd' := not_not.mp hcmd
          rw [carried_of_live (liveWrite_setWriteInp s id hlive hcmd' _),
            carried_of_live (liveWrite_eq_some.mpr ⟨hlive, a, hact, hcmd', hinp⟩)]
          simp only [countedTask, waitingTask, Option.toList_some, Option.toList_none,
            List.append_nil, payload_append, payload_singleton]
          rfl

theorem syncStep_carried {p : SyncPc} {next : Option SyncPc} {other : Option PushPc}
    (hother : syncHolds p = true → other = none) (h : FlowInv (flowWith s ((syncPush p).or other)))
    (hstep : s.syncStep p = .ok (s', next)) :
    (flowWith s' ((next.bind syncPush).or other)).carried
      = (flowWith s ((syncPush p).or other)).carried := by
  apply syncStep_rule
    (R := fun s₁ push => (flowWith s₁ push).carried = (flowWith s ((syncPush p).or other)).carried)
    hother hstep
  · intro hnone _ _ _
    rw [hnone]
    rfl
  · rintro q s₁ q' hq rfl hpush
    rw [hq] at h ⊢
    exact pushStep_carried h hpush
  · rintro hnone rfl s₁ q hlow
    rw [hnone]
    exact lowEfSync_carried hlow
  · rintro hnone rfl id inp hsome
    -- An `fsync` carries no byte.
    rw [hnone, carried_of_live hsome, carried_of_live hsome]
    simp [countedTask, waitingTask, payload, taskPayload]

/-- `free_file_action` of an action with an empty accumulator. -/
theorem freeStep_carried {p : FreePc} {next : Option FreePc}
    (haccum : p = .cleanup → ∀ id inp, liveWrite s = some (id, inp) → inp.wAccum = [])
    (hfreed : p = .setNull → s.action = .freed) (hstep : s.freeStep p = .ok (s', next))
    (push : Option PushPc) : (flowWith s' push).carried = (flowWith s push).carried := by
  cases p with
  | acquire expected =>
    obtain ⟨_, -, hok⟩ := bind_eq_ok.mp hstep
    cases hok
    rfl
  | cleanup =>
    obtain ⟨⟨id, a⟩, -, hok⟩ := bind_eq_ok.mp hstep
    simp only at hok
    split at hok
    · cases hok
    · cases hok
      have hnone : liveWrite { s with action := .freed } = none :=
        liveWrite_of_not_live fun _ _ h => by cases h
      rw [carried_of_none hnone]
      cases hlw : liveWrite s with
      | none => rw [carried_of_none hlw]
      | some r => rw [carried_of_live hlw, haccum rfl _ _ hlw, List.append_nil]
  | setNull =>
    obtain ⟨_, -, hok⟩ := bind_eq_ok.mp hstep
    cases hok
    have hact := hfreed rfl
    have hnone : liveWrite s = none := liveWrite_of_not_live fun _ _ h => by rw [hact] at h; cases h
    have hnone' : liveWrite { s with action := .null } = none :=
      liveWrite_of_not_live fun _ _ h => by cases h
    rw [carried_of_none hnone, carried_of_none hnone']
  | release =>
    obtain ⟨_, -, hok⟩ := bind_eq_ok.mp hstep
    cases hok
    rfl

/-- A new action has an empty accumulator. -/
theorem allocStep_carried {p : AllocPc} {oper : FileOper} {next : Option AllocPc}
    (hnull : p = .init → s.action = .null) (hstep : s.allocStep oper p = .ok (s', next))
    (push : Option PushPc) : (flowWith s' push).carried = (flowWith s push).carried := by
  cases p with
  | acquire expected =>
    obtain ⟨_, -, hok⟩ := bind_eq_ok.mp hstep
    cases hok
    rfl
  | init =>
    obtain ⟨_, hlive, hok⟩ := bind_eq_ok.mp hstep
    cases hok
    have hact := hnull rfl
    have hnone : liveWrite s = none := liveWrite_of_not_live fun _ _ h => by rw [hact] at h; cases h
    have hnew := liveWrite_of_live
      (s := { s with action := .live s.nextId (eioCmdInit oper), nextId := s.nextId + 1 })
      (derefRecord_eq_ok.mp hlive) rfl
    rw [carried_of_none hnone]
    by_cases hoper : oper = .operWrite
    · subst hoper
      rw [carried_of_live hnew]
      exact List.append_nil _
    · rw [carried_of_none (hnew.trans (if_neg hoper))]
  | release =>
    obtain ⟨_, -, hok⟩ := bind_eq_ok.mp hstep
    cases hok
    rfl

/-! ### The background -/

theorem carried_of_backlog {push : Option PushPc} (hpushed : s'.pushed = s.pushed)
    (haccum : (backlogWith s' push).accum = (backlogWith s push).accum) :
    (flowWith s' push).carried = (flowWith s push).carried := by
  show payload (s'.pushed ++ countedTask push ++ (waitingTask push).toList) ++ (backlogWith s' push).accum
    = payload (s.pushed ++ countedTask push ++ (waitingTask push).toList) ++ (backlogWith s push).accum
  rw [hpushed, haccum]

/-- `file_writer` neither pushes nor executes. -/
theorem fileWriterStep_items (hstep : s.fileWriterStep = some (.ok s')) :
    s'.pushed = s.pushed ∧ s'.executed = s.executed := by
  unfold fileWriterStep at hstep
  split at hstep
  · split at hstep <;> cases hstep <;> exact ⟨rfl, rfl⟩
  · obtain ⟨⟨i, a, inp⟩, -, hok⟩ := bind_eq_ok.mp (Option.some.inj hstep)
    cases hok
    exact ⟨rfl, rfl⟩
  · obtain ⟨⟨i, a, inp⟩, -, hok⟩ := bind_eq_ok.mp (Option.some.inj hstep)
    cases hok
    exact ⟨rfl, rfl⟩
  · obtain ⟨⟨i, a, inp⟩, -, hok⟩ := bind_eq_ok.mp (Option.some.inj hstep)
    simp only at hok
    split at hok <;> cases hok <;> exact ⟨rfl, rfl⟩
  · cases hstep
    exact ⟨rfl, rfl⟩
  · obtain ⟨⟨i, a, inp⟩, -, hok⟩ := bind_eq_ok.mp (Option.some.inj hstep)
    cases hok
    exact ⟨rfl, rfl⟩

theorem fileWriterStep_carried {push : Option PushPc} (h : FlowInv (flowWith s push))
    (hstep : s.fileWriterStep = some (.ok s')) :
    (flowWith s' push).carried = (flowWith s push).carried :=
  carried_of_backlog (fileWriterStep_items hstep).1
    (by rw [fileWriterStep_backlog h hstep])

theorem writeJobStep_carried {j : WriteJob} {next : Option WriteJob}
    (hstep : s.writeJobStep E j = .ok (s', next)) (push : Option PushPc) :
    (flowWith s' push).carried = (flowWith s push).carried := by
  cases j with
  | queued =>
    obtain ⟨⟨id, a, inp⟩, hd, hok⟩ := bind_eq_ok.mp hstep
    obtain ⟨hlive, hact, -⟩ := derefWriteInp_eq_ok.mp hd
    cases hok
    rw [flowWith_setAction { a with actionStatus := .actionInProgress } hlive hact rfl rfl]
  | items id rest bytes =>
    cases rest with
    | nil =>
      cases hstep
      rfl
    | cons w rest =>
      obtain ⟨_, -, hok⟩ := bind_eq_ok.mp hstep
      obtain ⟨⟨file, n⟩, -, hok⟩ := bind_eq_ok.mp hok
      cases hok
      rfl
  | finish id bytes =>
    obtain ⟨⟨id', a⟩, hd, hok⟩ := bind_eq_ok.mp hstep
    obtain ⟨hlive, hact⟩ := derefAction_eq_ok.mp hd
    cases hok
    rw [flowWith_setAction { a with
      returnValue := a.returnValue + bytes
      err := s.file.fd.errno } hlive hact rfl rfl]
  | post id =>
    cases hstep
    rfl

end Efio.Proofs.Evio
