import Efio.Proofs.Evio.DrainInv

/-!
# `Efio.Proofs.Evio.DrainStep`: the calls keep the invariant before a close

One lemma for each piece of the four calls, and `Draining.step` for a step
of any thread. An action is freed in one of three ways: it is complete and
no write action, it is a write action that `SET_WRITE_ACTION_STATUS` has
completed, or there is none (`dropComplete`, `DrainsAt`).
-/

set_option autoImplicit false

namespace Efio.Proofs.Evio

open Efio.Lib
open Efio.Evio
open Efio.Evio.PipelineState
open Efio.Spec
open Efio.Spec.Backlog
open Efio.Proofs.Spec

variable {E : Env} {s s' : PipelineState}

/-! ### Reading the invariant -/

/-- A place that knows only that no write action is complete. -/
theorem Draining.incomplete (h : Draining s) (hpc : outsidePlace s.foreground = true) :
    Incomplete s.action := by
  have hplace := h.place
  generalize s.foreground = pc at hplace hpc
  cases pc <;> first | exact hplace | cases hpc

/-- A complete action that is no write action may be freed. -/
theorem Draining.dropComplete (h : Draining s) {id : Nat} {a : FileCmd}
    (hact : s.action = .live id a) (hcomplete : a.actionStatus = .actionComplete)
    (hfinished : Finished (backlog s) s.action) :
    (IsWrite s.action → Settled (backlog s)) ∧ s.fileReads = [] := by
  refine ⟨?_, h.reads.nil_of_complete hact hcomplete⟩
  rintro ⟨id', a', hact', hcmd⟩
  obtain ⟨-, rfl⟩ := ActionPtr.live.inj (hact.symm.trans hact')
  exact hfinished _ _ hact hcmd hcomplete

theorem finished_of_incomplete {b : Backlog} {p : ActionPtr} (hinc : Incomplete p) : Finished b p :=
  fun id a hact hcmd hcomplete => absurd hcomplete (hinc id a hact hcmd)

theorem finished_of_not_isWrite {b : Backlog} {p : ActionPtr} (hno : ¬ IsWrite p) : Finished b p :=
  fun id a hact hcmd => absurd ⟨id, a, hact, hcmd⟩ hno

/-! ### The start of a call -/

theorem Draining.call {v : View} {c : Call} (h : Draining s) (hidle : s.foreground = .idle)
    (hinv : PipelineInv s') (hstep : s.callStep E v c = .ok s') : Draining s' := by
  have hinc := h.incomplete (by rw [hidle]; rfl)
  have hpush : foregroundPush s.foreground = none := by rw [hidle]; rfl
  have hbytes : restOf s.foreground = [] := by rw [hidle]; rfl
  cases c with
  | efWrite buf =>
    obtain rfl | ⟨-, rfl⟩ := callStep_efWrite hstep
    · exact h
    · exact h.jump hinv rfl hpush.symm hbytes.symm hinc
  | efSync =>
    obtain rfl | ⟨-, id, a, hact, ⟨hcomplete, rfl⟩ | ⟨-, rfl⟩⟩ := callStep_efSync hstep
    · exact h
    · exact h.jump hinv rfl hpush.symm hbytes.symm
        (h.dropComplete hact hcomplete (finished_of_incomplete hinc))
    · exact h.jump hinv rfl hpush.symm hbytes.symm hinc
  | efRead nbyte =>
    obtain ⟨ret, err, -, rfl⟩ | ⟨-, rfl⟩ := callStep_efRead hstep
    · exact h.finish hinv rfl hpush hbytes h.reads hinc
    · exact h.jump hinv rfl hpush.symm hbytes.symm hinc
  | efClose immediate =>
    obtain rfl | ⟨-, ⟨hnull, rfl⟩ | ⟨id, a, hact, -, ⟨hcomplete, rfl⟩ | ⟨-, rfl⟩⟩⟩ := callStep_efClose hstep
    · exact h
    · exact h.jump hinv rfl hpush.symm hbytes.symm
        fun hwrite => absurd hwrite (not_isWrite_of_null hnull)
    · exact h.jump hinv rfl hpush.symm hbytes.symm
        (h.dropComplete hact hcomplete (finished_of_incomplete hinc))
    · exact h.jump hinv rfl hpush.symm hbytes.symm fun _ => ⟨hinc, trivial⟩

/-! ### `ef_read` -/

theorem Draining.dispatch (h : Draining s) {nbyte : Nat} {po : Int}
    (hfg : s.foreground = .readSnapshot nbyte) (hinv : PipelineInv s')
    (hstep : s.readDispatch nbyte po = .ok s') : Draining s' := by
  have hinc := h.incomplete (by rw [hfg]; rfl)
  have hpush : foregroundPush s.foreground = none := by rw [hfg]; rfl
  have hbytes : restOf s.foreground = [] := by rw [hfg]; rfl
  obtain ⟨r, htest, hok⟩ := bind_eq_ok.mp hstep
  obtain ⟨-, ⟨rfl, hnull⟩ | ⟨id, a, rfl, hact⟩⟩ := testAction_eq_ok htest
  · cases hok
    exact h.jump hinv rfl hpush.symm hbytes.symm (finished_of_incomplete hinc)
  · have hfinish : ∀ ret err, PipelineInv (s.finishRead nbyte ret err []) →
        Draining (s.finishRead nbyte ret err []) := fun ret err hinv =>
      h.finish hinv rfl hpush hbytes h.reads hinc
    have hfree : ∀ k, a.actionStatus = .actionComplete →
        DrainsAt (backlog s) s.action s.fileReads (.freeing (.acquire 0) k) := fun k hcomplete =>
      h.dropComplete hact hcomplete (finished_of_incomplete hinc)
    simp only at hok
    split at hok
    · split at hok
      · rename_i hcomplete
        cases hok
        exact h.jump hinv rfl hpush.symm hbytes.symm (hfree _ hcomplete)
      · cases hok
        exact hfinish _ _ hinv
    · split at hok
      · cases hok
        exact hfinish _ _ hinv
      · rename_i hdone
        have hcomplete := not_not.mp (not_or.mp hdone).1
        split at hok
        · cases hok
          exact h.jump hinv rfl hpush.symm hbytes.symm (hfree _ hcomplete)
        · split at hok <;> cases hok <;>
            exact h.jump hinv rfl hpush.symm hbytes.symm (hfree _ hcomplete)
    · cases hok
      exact h.jump hinv rfl hpush.symm hbytes.symm fun _ => ⟨hinc, trivial⟩
    · split at hok <;> cases hok
      · exact hfinish _ _ hinv
      · exact h.jump hinv rfl hpush.symm hbytes.symm (finished_of_incomplete hinc)
    · split at hok <;> cases hok
      · exact hfinish _ _ hinv
      · exact h.jump hinv rfl hpush.symm hbytes.symm (finished_of_incomplete hinc)

theorem Draining.test (h : Draining s) {nbyte : Nat} {po : Int} {v : View}
    (hfg : s.foreground = .readTest nbyte po) (hinv : PipelineInv s')
    (hstep : s.readStep E v (.readTest nbyte po) = .ok s') : Draining s' := by
  have hfinished : Finished (backlog s) s.action := by
    have hplace := h.place
    rwa [hfg] at hplace
  obtain ⟨⟨id, a⟩, hd, hok⟩ := bind_eq_ok.mp hstep
  obtain ⟨-, hact⟩ := derefAction_eq_ok.mp hd
  simp only at hok
  split at hok
  · rename_i hopen
    cases hok
    refine h.finish hinv rfl (by rw [hfg]; rfl) (by rw [hfg]; rfl) h.reads ?_
    intro id' a' hact' _
    obtain ⟨-, rfl⟩ := ActionPtr.live.inj (hact.symm.trans hact')
    exact hopen
  · cases hok
    exact h.jump hinv rfl (by rw [hfg]; rfl) (by rw [hfg]; rfl) hfinished

theorem Draining.drop (h : Draining s) {nbyte : Nat} {po : Int} {v : View}
    (hfg : s.foreground = .readDrop nbyte po) (hinv : PipelineInv s')
    (hstep : s.readStep E v (.readDrop nbyte po) = .ok s') : Draining s' := by
  have hfinished : Finished (backlog s) s.action := by
    have hplace := h.place
    rwa [hfg] at hplace
  obtain ⟨r, htest, hok⟩ := bind_eq_ok.mp hstep
  obtain ⟨-, ⟨rfl, hnull⟩ | ⟨id, a, rfl, hact⟩⟩ := testAction_eq_ok htest
  · cases hok
    exact h.jump hinv rfl (by rw [hfg]; rfl) (by rw [hfg]; rfl)
      (incomplete_of_not_isWrite (not_isWrite_of_null hnull))
  · simp only at hok
    split at hok
    · rename_i hcomplete
      cases hok
      exact h.jump hinv rfl (by rw [hfg]; rfl) (by rw [hfg]; rfl)
        (h.dropComplete hact hcomplete hfinished)
    · rename_i hopen
      cases hok
      refine h.jump hinv rfl (by rw [hfg]; rfl) (by rw [hfg]; rfl) ?_
      intro id' a' hact' _
      obtain ⟨-, rfl⟩ := ActionPtr.live.inj (hact.symm.trans hact')
      exact hopen

/-- The copy of `ef_read` keeps the open flags and the dirty mark. -/
theorem readTransfer_frame {f f' : EfFile} {b bytes : List UInt8} {nbyte : Nat} {po ret : Int}
    {err : Option Errno} (h : readTransfer E f b nbyte po = .ok (f', ret, err, bytes)) :
    f'.oflag = f.oflag ∧ f'.buf.isDirty = f.buf.isDirty := by
  unfold readTransfer at h
  split at h
  · cases h
    exact ⟨rfl, rfl⟩
  · split at h
    · cases h
    · simp only at h
      split at h
      · cases h
      · generalize (if nbyte ≤ E.pageSize - po.toNat then nbyte else E.pageSize - po.toNat) = wanted at h
        generalize (if f.fileOffset + wanted > f.currFileSizeOnDisk then
          wanted - (f.fileOffset + wanted - f.currFileSizeOnDisk) else wanted) = size at h
        split at h
        · cases h
          exact ⟨rfl, rfl⟩
        · split at h <;> cases h
          exact ⟨rfl, rfl⟩

theorem Draining.buffer (h : Draining s) {nbyte : Nat} {po : Int} {v : View}
    (hfg : s.foreground = .readBuffer nbyte po) (hinv : PipelineInv s')
    (hstep : s.readStep E v (.readBuffer nbyte po) = .ok s') : Draining s' := by
  have hinc : Incomplete s.action := by
    have hplace := h.place
    rwa [hfg] at hplace
  have hpush : foregroundPush s.foreground = none := by rw [hfg]; rfl
  have hbytes : restOf s.foreground = [] := by rw [hfg]; rfl
  obtain ⟨_, -, hok⟩ := bind_eq_ok.mp hstep
  cases hb : s.file.buf.buffer with
  | none =>
    simp only [hb] at hok
    obtain ⟨r, htest, hok⟩ := bind_eq_ok.mp hok
    obtain ⟨-, ⟨rfl, hnull⟩ | ⟨id, a, rfl, hact⟩⟩ := testAction_eq_ok htest
    · cases hok
      exact h.jump hinv rfl hpush.symm hbytes.symm hinc
    · cases hok
      exact h.finish hinv rfl hpush hbytes h.reads hinc
  | some b =>
    simp only [hb] at hok
    obtain ⟨⟨file, ret, err, bytes⟩, hread, hok⟩ := bind_eq_ok.mp hok
    cases hok
    obtain ⟨hoflag, hdirty⟩ := readTransfer_frame hread
    refine h.of_frame false hinv ⟨rfl, .same⟩ hoflag (Or.inl hdirty) ?_ h.reads hinc
    have hflow : flow ({ s with file := file }.finishRead nbyte ret err bytes) = flow s := by
      rw [flow, flow, pushOf, pushOf, hfg]
      rfl
    have haccounted := h.accounted
    rw [hbytes] at haccounted
    rw [hflow]
    show (flow s).carried ++ [] = acceptedBytes (s.history ++ [.readReturned nbyte ret err bytes])
    rw [acceptedBytes_returned]
    exact haccounted

theorem Draining.fire (h : Draining s) {nbyte : Nat} {v : View}
    (hfg : s.foreground = .readFire nbyte) (hinv : PipelineInv s')
    (hstep : s.readStep E v (.readFire nbyte) = .ok s') : Draining s' := by
  obtain ⟨_, -, hok⟩ := bind_eq_ok.mp hstep
  split at hok
  · cases hok
  · split at hok
    · cases hok
    · rename_i hnull
      cases hok
      have hnull := not_not.mp hnull
      exact h.jump hinv rfl (by rw [hfg]; rfl) (by rw [hfg]; rfl) 
        ⟨hnull, h.reads.nil_of_null hnull, rfl⟩

theorem Draining.enqueue (h : Draining s) {nbyte : Nat} {v : View}
    (hfg : s.foreground = .readEnqueue nbyte) (hinv : PipelineInv s')
    (hstep : s.readStep E v (.readEnqueue nbyte) = .ok s') : Draining s' := by
  obtain ⟨hwork, hjs⟩ : Working .operRead s.action ∧ s.fileReads = [] := by
    have hplace := h.place
    rwa [hfg] at hplace
  obtain ⟨_, -, hok⟩ := bind_eq_ok.mp hstep
  cases hok
  refine h.finish hinv rfl (by rw [hfg]; rfl) (by rw [hfg]; rfl) (Or.inr ⟨?_, hwork⟩) hwork.incomplete
  show (s.fileReads ++ [ReadJob.queued s.file.buf.bufferIndex]).length = 1
  rw [hjs]
  rfl

/-! ### `ef_write` and `ef_sync` -/

/-- The thread that holds `_write_suspended` knows the push. -/
theorem Draining.flow_eq (h : Draining s) (htag : foregroundTag s.foreground ≠ none) :
    flow s = flowWith s (foregroundPush s.foreground) := by
  rw [flow, pushOf, h.inv.locks.slow_push htag, Option.or_none]

/-- The next bytes of the call go into the accumulator, and a full one is
about to be pushed. -/
theorem Draining.loop (h : Draining s) {buf : List UInt8} {done : Nat}
    (hfg : s.foreground = .writeLoop buf done) (hinv : PipelineInv s')
    (hstep : s.writeStep E (.writeLoop buf done) = .ok s') : Draining s' := by
  have hinc : Incomplete s.action := by
    have hplace := h.place
    rwa [hfg] at hplace
  have htag : foregroundTag s.foreground ≠ none := by rw [hfg]; nofun
  have hslow := h.inv.locks.slow_push htag
  simp only [writeStep] at hstep
  split at hstep
  · rename_i hend
    cases hstep
    refine h.jump hinv rfl (by rw [hfg]; rfl) ?_ hinc
    rw [hfg]
    exact (List.drop_eq_nil_of_le hend).symm
  · obtain ⟨⟨id, a, inp⟩, hd, hok⟩ := bind_eq_ok.mp hstep
    obtain ⟨hlive, hact, hinp⟩ := derefWriteInp_eq_ok.mp hd
    have hcmd : a.cmd = .operWrite := by
      have htyped := h.inv.own.typed
      rw [hact] at htyped
      exact htyped (by rw [hinp]; rfl)
    have hsome := liveWrite_eq_some.mpr ⟨hlive, a, hact, hcmd, hinp⟩
    obtain ⟨n, hn⟩ : ∃ n, min (buf.length - done) (E.pageSize - inp.wAccum.length) = n := ⟨_, rfl⟩
    have hsplit : (buf.drop done).take n ++ buf.drop (done + n) = buf.drop done := by
      rw [← List.drop_drop, List.take_append_drop]
    have hold : payload s.pushed ++ (inp.wAccum ++ (buf.drop done).take n ++ buf.drop (done + n))
        = acceptedBytes s.history := by
      have haccounted := h.accounted
      rw [h.flow_eq htag, hfg] at haccounted
      change (flowWith s none).carried ++ buf.drop done = _ at haccounted
      rw [carried_of_live hsome] at haccounted
      simp only [countedTask, waitingTask, Option.toList_none, List.append_nil] at haccounted
      rw [← haccounted, List.append_assoc, List.append_assoc, hsplit]
    simp only [hn] at hok
    split at hok
    · cases hok
    · split at hok <;> cases hok
      · refine h.of_frame false hinv ⟨rfl, .setWriteInp hact hinp _⟩ rfl (Or.inl rfl) ?_
          (h.reads.step (.setWriteInp hact hinp _)) (Stores.incomplete (.setWriteInp hact hinp _) hinc)
        have hnew := liveWrite_setWriteInp s id hlive hcmd { inp with wAccum := [] }
        show (flowWith (s.setWriteInp id a { inp with wAccum := [] }) (some (.count _))).carried
          ++ buf.drop (done + n) = acceptedBytes s.history
        rw [carried_of_live hnew, ← hold]
        simp only [countedTask, waitingTask, taskPayload, Option.toList_some, List.append_nil,
          payload_append, payload_singleton, List.append_assoc]
        rfl
      · refine h.of_frame false hinv ⟨rfl, .setWriteInp hact hinp _⟩ rfl (Or.inl rfl) ?_
          (h.reads.step (.setWriteInp hact hinp _)) (Stores.incomplete (.setWriteInp hact hinp _) hinc)
        have hnew := liveWrite_setWriteInp s id hlive hcmd
          { inp with wAccum := inp.wAccum ++ (buf.drop done).take n }
        show (flowWith _ (Option.or none (s.slowSync.bind syncPush))).carried ++ buf.drop (done + n)
          = acceptedBytes s.history
        rw [hslow]
        show (flowWith (s.setWriteInp id a _) none).carried ++ buf.drop (done + n) = _
        rw [carried_of_live hnew, ← hold]
        simp only [countedTask, waitingTask, Option.toList_none, List.append_nil, List.append_assoc]
        rfl

theorem Draining.ensure (h : Draining s) {buf : List UInt8} (hfg : s.foreground = .writeEnsure buf)
    (hinv : PipelineInv s') (hstep : s.writeStep E (.writeEnsure buf) = .ok s') : Draining s' := by
  have hinc : Incomplete s.action := by
    have hplace := h.place
    rwa [hfg] at hplace
  obtain ⟨_, -, hok⟩ := bind_eq_ok.mp hstep
  have haccounted : (flow s).carried ++ buf = acceptedBytes (s.history ++ [.accepted buf]) := by
    have haccounted := h.accounted
    rw [hfg] at haccounted
    rw [acceptedBytes_accepted, ← haccounted]
    show _ = (flow s).carried ++ [] ++ buf
    rw [List.append_nil]
  by_cases hnull : s.action = .null
  · rw [if_pos hnull] at hok
    cases hok
    exact h.goto hinv rfl (by rw [hfg]; rfl) haccounted h.reads
      ⟨hnull, h.reads.nil_of_null hnull, rfl⟩
  · rw [if_neg hnull] at hok
    cases hok
    exact h.goto hinv rfl (by rw [hfg]; rfl) haccounted h.reads hinc

theorem Draining.write (h : Draining s) {pc : ForegroundPc} (hfg : s.foreground = pc)
    (hinv : PipelineInv s') (hstep : s.writeStep E pc = .ok s') : Draining s' := by
  have hinc : outsidePlace pc = true → Incomplete s.action := fun hpc => h.incomplete (hfg ▸ hpc)
  have hcases := hstep
  unfold writeStep at hcases
  split at hcases
  · obtain ⟨_, -, hok⟩ := bind_eq_ok.mp hcases
    cases hok
    refine h.jump hinv rfl ?_ ?_ ?_
    · rw [hfg]
      show foregroundPush (if _ then _ else _) = _
      split <;> rfl
    · rw [hfg]
      show restOf (if _ then _ else _) = _
      split <;> rfl
    · show DrainsAt _ _ _ (if _ then _ else _)
      split <;> exact hinc rfl
  · obtain ⟨r, htest, hok⟩ := bind_eq_ok.mp hcases
    obtain ⟨-, ⟨rfl, hnull⟩ | ⟨id, a, rfl, hact⟩⟩ := testAction_eq_ok htest
    · cases hok
      exact h.jump hinv rfl (by rw [hfg]; rfl) (by rw [hfg]; rfl) (hinc rfl)
    · simp only at hok
      split at hok
      · rename_i hcomplete
        cases hok
        exact h.jump hinv rfl (by rw [hfg]; rfl) (by rw [hfg]; rfl)
          (h.dropComplete hact hcomplete (finished_of_incomplete (hinc rfl)))
      · split at hok <;> cases hok <;>
          exact h.jump hinv rfl (by rw [hfg]; rfl) (by rw [hfg]; rfl) (hinc rfl)
  · exact h.ensure hfg hinv hstep
  · exact h.loop hfg hinv hstep
  · obtain ⟨_, -, hok⟩ := bind_eq_ok.mp hcases
    simp only at hok
    split at hok
    · cases hok
    · cases hok
      exact h.jump hinv rfl (by rw [hfg]; rfl) (by rw [hfg]; rfl) (hinc rfl)
  · cases hcases
    exact h

/-- A piece of shared code that touches the action and the write flow. -/
theorem Draining.of_code {completes : Bool} {s₁ : PipelineState} {pc : ForegroundPc}
    (h : Draining s) (hinv : PipelineInv { s₁ with foreground := pc }) (hframe : Frame completes s s₁)
    (hcarried : (flow { s₁ with foreground := pc }).carried = (flow s).carried)
    (hbytes : restOf pc = restOf s.foreground) (hreads : ReadWorks s₁.action s.fileReads)
    (hplace : DrainsAt (backlog { s₁ with foreground := pc }) s₁.action s.fileReads pc) :
    Draining { s₁ with foreground := pc } := by
  have hfile : s₁.file = s.file := by rw [hframe.rest]
  have hhistory : s₁.history = s.history := by rw [hframe.rest]
  have hjs : s₁.fileReads = s.fileReads := by rw [hframe.rest]
  refine h.of_frame completes hinv ⟨?_, hframe.action⟩ (by simp only [hfile]) (Or.inl (by simp only [hfile]))
    ?_ ?_ ?_
  · simp only [hfile, hhistory, hjs, hframe.slowSync]
    conv => lhs; rw [hframe.rest]
  · rw [hcarried]
    show (flow s).carried ++ restOf pc = acceptedBytes s₁.history
    rw [hbytes, hhistory]
    exact h.accounted
  · show ReadWorks s₁.action s₁.fileReads
    rw [hjs]
    exact hreads
  · show DrainsAt (backlog { s₁ with foreground := pc }) s₁.action s₁.fileReads pc
    rw [hjs]
    exact hplace

theorem Draining.sync (h : Draining s) {pc : ForegroundPc} (hfg : s.foreground = pc)
    (hinv : PipelineInv s') (hstep : s.efSyncStep pc = .ok s') : Draining s' := by
  have hplace := h.place
  rw [hfg] at hplace
  unfold efSyncStep at hstep
  split at hstep
  · obtain ⟨_, -, hok⟩ := bind_eq_ok.mp hstep
    cases hok
    refine h.jump hinv rfl ?_ ?_ ?_
    · rw [hfg]
      show foregroundPush (if _ then _ else _) = _
      split <;> rfl
    · rw [hfg]
      show restOf (if _ then _ else _) = _
      split <;> rfl
    · show DrainsAt _ _ _ (if _ then _ else _)
      split <;> exact hplace
  · obtain ⟨⟨s₁, p⟩, hsync, hok⟩ := bind_eq_ok.mp hstep
    cases hok
    have htag : foregroundTag s.foreground ≠ none := by rw [hfg]; nofun
    have hframe := (lowEfSync_frame hsync).1
    have hcarried := lowEfSync_carried hsync
    refine h.of_code hinv hframe ?_ ?_ (h.reads.step hframe.action) ?_
    · rw [h.flow_eq htag, hfg]
      show (flowWith _ (Option.or _ (s₁.slowSync.bind syncPush))).carried = _
      rw [hframe.slowSync, h.inv.locks.slow_push htag, Option.or_none]
      cases p <;> exact hcarried
    · rw [hfg]
      cases p <;> rfl
    · cases p <;> exact hframe.action.incomplete hplace
  · obtain ⟨_, -, hok⟩ := bind_eq_ok.mp hstep
    simp only at hok
    split at hok
    · cases hok
    · cases hok
      exact h.jump hinv rfl (by rw [hfg]; rfl) (by rw [hfg]; rfl) hplace
  · cases hstep
    exact h

/-! ### The shared pieces of code -/

theorem Draining.push (h : Draining s) {p : PushPc} {k : AfterPush}
    (hfg : s.foreground = .pushing p k) {next : Option PushPc} {s₁ : PipelineState}
    (hinv : PipelineInv { s₁ with foreground := next.elim (afterPush k) (.pushing · k) })
    (hstep : s.pushStep p = .ok (s₁, next)) :
    Draining { s₁ with foreground := next.elim (afterPush k) (.pushing · k) } := by
  have hinc : Incomplete s.action := by
    have hplace := h.place
    rwa [hfg] at hplace
  have htag : foregroundTag s.foreground ≠ none := by
    rw [hfg]
    cases k <;> nofun
  have hflow : flow s = flowWith s (some p) := by
    rw [h.flow_eq htag, hfg]
    rfl
  have hflowInv : FlowInv (flowWith s (some p)) := hflow ▸ h.inv.flow
  have hframe := (pushStep_frame (isWrite_of_push hflowInv nofun) hstep).1
  refine h.of_code hinv hframe ?_ ?_ (h.reads.step hframe.action) ?_
  · rw [hflow, ← pushStep_carried hflowInv hstep, flow, pushOf]
    show (flowWith _ (Option.or _ (s₁.slowSync.bind syncPush))).carried = _
    rw [hframe.slowSync, h.inv.locks.slow_push htag, Option.or_none]
    cases next <;> cases k <;> rfl
  · rw [hfg]
    cases next <;> cases k <;> rfl
  · have hinc' := hframe.action.incomplete hinc
    cases next <;> cases k <;> exact hinc'

/-- `free_file_action` and `alloc_file_action`. -/
theorem Draining.replace (h : Draining s) (hinv : PipelineInv s')
    (hrest : s' = { s with
      action := s'.action
      preventActionMutation := s'.preventActionMutation
      nextId := s'.nextId
      foreground := s'.foreground })
    (hclean : ¬ IsWrite s'.action → s.file.buf.isDirty = false)
    (hcarried : (flow s').carried = (flow s).carried)
    (hbytes : restOf s'.foreground = restOf s.foreground) (hjs : s.fileReads = [])
    (hplace : DrainsAt (backlog s') s'.action [] s'.foreground) : Draining s' := by
  have hreads : s'.fileReads = [] := (show s'.fileReads = s.fileReads by rw [hrest]).trans hjs
  have hfile : s'.file = s.file := by rw [hrest]
  refine ⟨?_, ?_, ?_, ?_, hinv, hfile ▸ h.writable, fun hno => hfile ▸ hclean hno, ?_, Or.inl hreads, ?_⟩
  · exact (show s'.recordLive = s.recordLive by rw [hrest]).trans h.live
  · exact (show s'.slot = s.slot by rw [hrest]).trans h.slot
  · exact (show s'.status = s.status by rw [hrest]).trans h.status
  · exact (show s'.fileCloses = s.fileCloses by rw [hrest]).trans h.closes
  · rw [hcarried, hbytes, show s'.history = s.history by rw [hrest]]
    exact h.accounted
  · rw [hreads]
    exact hplace

theorem Draining.free (h : Draining s) {p : FreePc} {k : AfterFree}
    (hfg : s.foreground = .freeing p k) {next : Option FreePc} {s₁ : PipelineState}
    (hstep : s.freeStep p = .ok (s₁, next))
    (hinv : PipelineInv (match next with
      | some p => { s₁ with foreground := .freeing p k }
      | none => s₁.afterFree k)) :
    Draining (match next with
      | some p => { s₁ with foreground := .freeing p k }
      | none => s₁.afterFree k) := by
  obtain ⟨hsettled, hjs⟩ : (IsWrite s.action → Settled (backlog s)) ∧ s.fileReads = [] := by
    have hplace := h.place
    rwa [hfg] at hplace
  have hpush : foregroundPush s.foreground = none := by rw [hfg]; rfl
  have hbytes : restOf s.foreground = [] := by rw [hfg]; rfl
  have hclean : s.file.buf.isDirty = false := by
    by_cases hwrite : IsWrite s.action
    · exact (hsettled hwrite).clean
    · exact h.clean hwrite
  have hcarried : ∀ pc, foregroundPush pc = none →
      (flow { s₁ with foreground := pc }).carried = (flow s).carried := by
    intro pc hpc
    have haccum : p = .cleanup → ∀ id inp, liveWrite s = some (id, inp) → inp.wAccum = [] := by
      rintro - id inp hsome
      obtain ⟨-, a, hact, hcmd, -⟩ := liveWrite_eq_some.mp hsome
      have haccum := (hsettled ⟨id, a, hact, hcmd⟩).accum
      simpa only [backlog, backlogWith, flowWith, WriteFlow.backlog, hsome, Option.map_some,
        Option.getD_some] using haccum
    have hfreed : p = .setNull → s.action = .freed := by
      rintro rfl
      exact h.inv.own.freed_of_foreground (by rw [hfg]; rfl)
    have hslow : s₁.slowSync = s.slowSync := by rw [freeStep_rest hstep]
    rw [flow, flow, pushOf, pushOf, hpush, ← freeStep_carried haccum hfreed hstep]
    show (flowWith _ ((foregroundPush pc).or (s₁.slowSync.bind syncPush))).carried = _
    rw [hpc, hslow]
    rfl
  cases p with
  | acquire expected =>
    obtain ⟨_, -, hok⟩ := bind_eq_ok.mp hstep
    cases hok
    exact h.jump hinv rfl hpush.symm hbytes.symm ⟨hsettled, hjs⟩
  | cleanup =>
    obtain ⟨⟨id, a⟩, -, hok⟩ := bind_eq_ok.mp hstep
    simp only at hok
    split at hok
    · cases hok
    · cases hok
      refine h.replace hinv rfl (fun _ => hclean) (hcarried _ rfl) hbytes.symm hjs ⟨?_, rfl⟩
      rintro ⟨id, a, hact, -⟩
      cases hact
  | setNull =>
    obtain ⟨_, -, hok⟩ := bind_eq_ok.mp hstep
    cases hok
    refine h.replace hinv rfl (fun _ => hclean) (hcarried _ rfl) hbytes.symm hjs ⟨?_, rfl⟩
    rintro ⟨id, a, hact, -⟩
    cases hact
  | release =>
    have hnull := h.inv.own.null (by rw [hfg]; rfl)
    have hno := not_isWrite_of_null hnull
    have hinc := incomplete_of_not_isWrite hno
    obtain ⟨_, -, hok⟩ := bind_eq_ok.mp hstep
    cases hok
    cases k with
    | write buf => exact h.jump hinv rfl hpush.symm hbytes.symm hinc
    | sync => exact h.jump hinv rfl hpush.symm hbytes.symm hinc
    | readDone nbyte ret err => exact h.finish hinv rfl hpush hbytes h.reads hinc
    | readDrop nbyte po => exact h.jump hinv rfl hpush.symm hbytes.symm (finished_of_not_isWrite hno)
    | readBuffer nbyte po => exact h.jump hinv rfl hpush.symm hbytes.symm hinc
    | closeSync immediate =>
      exact h.jump hinv rfl hpush.symm hbytes.symm fun hwrite => absurd hwrite hno
    | closeAlloc immediate => exact h.jump hinv rfl hpush.symm hbytes.symm ⟨hnull, hjs, rfl⟩

theorem Draining.alloc (h : Draining s) {p : AllocPc} {oper : FileOper} {k : AfterAlloc}
    (hfg : s.foreground = .allocating p oper k) {next : Option AllocPc} {s₁ : PipelineState}
    (hinv : PipelineInv { s₁ with foreground := next.elim (afterAlloc k) (.allocating · oper k) })
    (hstep : s.allocStep oper p = .ok (s₁, next)) :
    Draining { s₁ with foreground := next.elim (afterAlloc k) (.allocating · oper k) } := by
  obtain ⟨halloc, hjs, rfl⟩ : Allocates oper p s.action ∧ s.fileReads = [] ∧ oper = allocatedBy k := by
    have hplace := h.place
    rwa [hfg] at hplace
  have hpush : foregroundPush s.foreground = none := by rw [hfg]; rfl
  cases p with
  | acquire expected =>
    obtain ⟨_, -, hok⟩ := bind_eq_ok.mp hstep
    cases hok
    refine h.jump hinv rfl hpush.symm ?_ ⟨?_, hjs, rfl⟩
    · rw [hfg]
      cases k <;> rfl
    · split <;> exact halloc
  | init =>
    have hslow : s₁.slowSync = s.slowSync := by rw [allocStep_rest hstep]
    have hcarried := allocStep_carried (fun _ => halloc) hstep (pushOf s)
    obtain ⟨_, -, hok⟩ := bind_eq_ok.mp hstep
    cases hok
    refine h.replace hinv rfl (fun _ => h.clean (not_isWrite_of_null halloc)) ?_ ?_ hjs
      ⟨⟨_, _, rfl, rfl, nofun⟩, rfl, rfl⟩
    · rw [flow, flow, pushOf]
      show (flowWith _ (Option.or none (s.slowSync.bind syncPush))).carried = _
      have hnone : pushOf s = s.slowSync.bind syncPush := by
        rw [pushOf, hpush]
        rfl
      rw [← hcarried, hnone]
      rfl
    · rw [hfg]
      cases k <;> rfl
  | release =>
    obtain ⟨_, -, hok⟩ := bind_eq_ok.mp hstep
    cases hok
    cases k with
    | write buf => exact h.jump hinv rfl hpush.symm (by rw [hfg]; rfl) halloc.incomplete
    | read nbyte => exact h.jump hinv rfl hpush.symm (by rw [hfg]; rfl) ⟨halloc, hjs⟩
    | close immediate => exact h.jump hinv rfl hpush.symm (by rw [hfg]; rfl) halloc

/-- `SET_WRITE_ACTION_STATUS` changes nothing before its store. -/
theorem setStep_same {p : SetPc} {next : Option SetPc} (hp : p ≠ .store)
    (hstep : s.setStep p = .ok (s', next)) : s' = s := by
  cases p with
  | readTotreq =>
    obtain ⟨r, -, hok⟩ := bind_eq_ok.mp hstep
    split at hok
    · split at hok
      · cases hok
        rfl
      · split at hok <;> cases hok
        rfl
    · cases hok
      rfl
  | compare totreq =>
    obtain ⟨_, -, hok⟩ := bind_eq_ok.mp hstep
    cases hok
    rfl
  | store => exact absurd rfl hp

theorem Draining.set (h : Draining s) {p : SetPc} {k : AfterSync}
    (hfg : s.foreground = .setting p k) {next : Option SetPc} {s₁ : PipelineState}
    (hinv : PipelineInv { s₁ with foreground := next.elim (afterSet k) (.setting · k) })
    (hstep : s.setStep p = .ok (s₁, next)) :
    Draining { s₁ with foreground := next.elim (afterSet k) (.setting · k) } := by
  obtain ⟨hkind, hmet⟩ : (p ≠ .readTotreq → IsWrite s.action) ∧
      (IsWrite s.action → Incomplete s.action ∧ Met (backlog s) p) := by
    have hplace := h.place
    rwa [hfg] at hplace
  have hframe := (setStep_frame hstep).1
  have hpush : pushOf { s₁ with foreground := next.elim (afterSet k) (.setting · k) } = pushOf s := by
    rw [pushOf, pushOf, hfg]
    show Option.or _ (s₁.slowSync.bind syncPush) = _
    rw [hframe.slowSync]
    cases next <;> cases k <;> rfl
  have hback : backlog { s₁ with foreground := next.elim (afterSet k) (.setting · k) } = backlog s := by
    rw [backlog, backlog, hpush, ← setStep_backlog hstep]
    rfl
  have hcarried : (flow { s₁ with foreground := next.elim (afterSet k) (.setting · k) }).carried
      = (flow s).carried := by
    rw [flow, flow, hpush, ← setStep_flow hstep]
    rfl
  have hbytes : restOf (next.elim (afterSet k) (.setting · k)) = restOf s.foreground := by
    rw [hfg]
    cases next <;> cases k <;> rfl
  have hafter : ∀ {b : Backlog} {q : ActionPtr}, Finished b q → (IsWrite q → EndsClean b) →
      DrainsAt b q s.fileReads (afterSet k) := by
    intro b q hfinished hclean
    cases k with
    | read nbyte po => exact hfinished
    | close immediate => exact ⟨hfinished, hclean⟩
  refine h.of_code hinv hframe hcarried hbytes ?_ ?_
  · -- Only a write action is completed here.
    by_cases hwrite : IsWrite s.action
    · exact Or.inl (h.reads.nil fun hwork => hwork.not_isWrite hwrite)
    · cases p with
      | readTotreq => exact setStep_same (p := .readTotreq) (by simp) hstep ▸ h.reads
      | compare totreq => exact absurd (hkind (by simp)) hwrite
      | store => exact absurd (hkind (by simp)) hwrite
  · rw [hback]
    cases p with
    | readTotreq =>
      obtain ⟨r, htest, hok⟩ := bind_eq_ok.mp hstep
      obtain ⟨hlive, ⟨rfl, hnull⟩ | ⟨id, a, rfl, hact⟩⟩ := testAction_eq_ok htest
      · cases hok
        have hno := not_isWrite_of_null hnull
        exact hafter (finished_of_not_isWrite hno) fun hwrite => absurd hwrite hno
      · simp only at hok
        split at hok
        · rename_i hcmd
          cases hok
          have hno := not_isWrite_of_live hact hcmd
          exact hafter (finished_of_not_isWrite hno) fun hwrite => absurd hwrite hno
        · rename_i hcmd
          split at hok
          · cases hok
          · rename_i inp hinp
            cases hok
            have hcmd := not_not.mp hcmd
            refine ⟨fun _ => ⟨id, a, hact, hcmd⟩, fun hwrite => ?_⟩
            obtain ⟨hinc, hclean⟩ := hmet hwrite
            refine ⟨hinc, ?_⟩
            rw [← totreq_eq (liveWrite_eq_some.mpr ⟨hlive, a, hact, hcmd, hinp⟩)]
            exact endsCleanAt_totreq hclean
    | compare totreq =>
      obtain ⟨⟨id, a, inp⟩, hd, hok⟩ := bind_eq_ok.mp hstep
      obtain ⟨hlive, hact, hinp⟩ := derefWriteInp_eq_ok.mp hd
      have hcmd : a.cmd = .operWrite := by
        have htyped := h.inv.own.typed
        rw [hact] at htyped
        exact htyped (by rw [hinp]; rfl)
      obtain ⟨hinc, hclean⟩ := hmet ⟨id, a, hact, hcmd⟩
      have hsome := liveWrite_eq_some.mpr ⟨hlive, a, hact, hcmd, hinp⟩
      simp only at hok
      split at hok
      · rename_i hmeet
        cases hok
        refine ⟨fun _ => ⟨id, a, hact, hcmd⟩, fun _ => ⟨hinc, settled_of_meet hclean ?_⟩⟩
        rw [hmeet, totreq_eq hsome]
        exact backlog_le (h.inv.flow.flowing hsome) h.inv.fits hsome s.file
      · cases hok
        exact hafter (finished_of_incomplete hinc) fun _ => endsClean_of_at hclean
    | store =>
      obtain ⟨⟨id, a⟩, -, hok⟩ := bind_eq_ok.mp hstep
      cases hok
      have hsettled := fun hwrite => (hmet (hframe.action.isWrite hwrite)).2
      refine hafter (fun i a' hact hcmd _ => hsettled ⟨i, a', hact, hcmd⟩) fun hwrite => ?_
      exact endsClean_of_settled (hsettled hwrite)

end Efio.Proofs.Evio
