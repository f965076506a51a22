import Efio.Proofs.Evio.MixedInv

/-!
# `Efio.Proofs.Evio.MixedStep`: the steps of `ef_read` and `ef_write`

Each step of the foreground thread keeps `Mixed`, one lemma for each piece
of the two calls. The copy of `ef_read` is the only one with a condition:
the page offset it read at its start must be that of the file it copies
from (`Mixed.copy`).
-/

set_option autoImplicit false

namespace Efio.Proofs.Evio

open Efio.Lib
open Efio.Evio
open Efio.Evio.PipelineState
open Efio.Spec
open Efio.Spec.Backlog
open Efio.Proofs.Spec

variable {E : Env} {init : List UInt8} {s s' : PipelineState}

/-! ### Rules -/

theorem Mixed.incomplete (h : Mixed E init s) (hpc : outsidePlace s.foreground = true) :
    Incomplete s.action := by
  have hplace := h.place
  generalize s.foreground = pc at hplace hpc
  cases hplace with
  | outside _ hinc => exact hinc
  | _ => cases hpc

/-- `ef_read` returns without bytes. -/
theorem Mixed.finish (h : Mixed E init s) {nbyte : Nat} {ret : Int} {err : Option Errno}
    (hinv : PipelineInv s')
    (hrest : s' = { s with
      preventActionMutation := s'.preventActionMutation
      fileReads := s'.fileReads
      foreground := .idle
      history := s.history ++ [.readReturned nbyte ret err []] })
    (hret : ret ≤ 0) (hpush : foregroundPush s.foreground = none) (hbytes : restOf s.foreground = [])
    (hreads : PageRead s.file s.action s'.fileReads) (hinc : Incomplete s.action) :
    Mixed E init s' := by
  have hback : backlog s' = backlog s := by
    refine backlog_goto ?_ ?_ ?_ ?_ ?_ ?_ <;> rw [hrest]
    · rfl
    · exact hpush.symm
  have hpending : pending s' = pending s := by
    rw [pending, pending, hback, hbytes, hrest]
    rfl
  refine h.of_frame false hinv ⟨?_, ?_⟩ (Or.inl ?_) ?_ ?_ ?_
  · rw [hrest]
  · rw [hrest]
    exact .same
  · rw [hrest]
  · rw [hpending, hrest]
    exact h.stands.noBytes nbyte err hret
  · rw [hrest] at hreads ⊢
    exact hreads
  · rw [hrest]
    exact .outside rfl hinc

theorem settled_cleared {b : Backlog} (h : Settled b) : Settled { b with accum := [], totreq := 0 } :=
  ⟨rfl, h.waiting, h.queue, h.clean⟩

/-- `free_file_action` and `alloc_file_action` find nothing on its way. -/
theorem Mixed.replace (h : Mixed E init s) (hinv : PipelineInv s')
    (hrest : s' = { s with
      action := s'.action
      preventActionMutation := s'.preventActionMutation
      nextId := s'.nextId
      foreground := s'.foreground })
    (hsettled : Settled (backlog s))
    (hfresh : ∀ id inp, liveWrite s' = some (id, inp) → inp.wAccum = [] ∧ inp.writeTotreqCount = 0)
    (hpush : foregroundPush s'.foreground = foregroundPush s.foreground)
    (hbytes : restOf s'.foreground = restOf s.foreground) (hjs : s.fileReads = [])
    (hplace : Settled (backlog s') →
      MixedPlace s.file (backlog s') s'.action s.fileReads s'.foreground) : Mixed E init s' := by
  have hback : backlog s' = { backlog s with accum := [], totreq := 0 } := by
    have hpushOf : pushOf s' = pushOf s := by
      rw [pushOf, pushOf, hpush, show s'.slowSync = s.slowSync by rw [hrest]]
    have haccum : ((liveWrite s').map fun a => a.2.wAccum).getD [] = [] := by
      cases hlw : liveWrite s' with
      | none => rfl
      | some a => exact (hfresh a.1 a.2 hlw).1
    have htotreq : ((liveWrite s').map fun a => a.2.writeTotreqCount).getD 0 = 0 := by
      cases hlw : liveWrite s' with
      | none => rfl
      | some a => exact (hfresh a.1 a.2 hlw).2
    have hpushed : s'.pushed = s.pushed := by rw [hrest]
    have hexecuted : s'.executed = s.executed := by rw [hrest]
    have hfile : s'.file = s.file := by rw [hrest]
    simp only [backlog, backlogWith, flowWith, WriteFlow.backlog, hpushOf, haccum, htotreq, hpushed,
      hexecuted, hfile]
  have hsettled' : Settled (backlog s') := hback ▸ settled_cleared hsettled
  have hpending : pending s' = pending s := by
    rw [pending, pending, settled_outstanding hsettled, settled_outstanding hsettled', hbytes]
  have hfile : s'.file = s.file := by rw [hrest]
  have hreads : s'.fileReads = s.fileReads := by rw [hrest]
  refine ⟨h.toStaysOpen.of_rest ?_ ?_ ?_ ?_ ?_, hinv, fun _ => hfile ▸ hsettled.clean, ?_, ?_, ?_⟩
  iterate 5 rw [hrest]
  · rw [hpending, hfile, show s'.history = s.history by rw [hrest]]
    exact h.stands
  · rw [hreads, hjs]
    exact .none
  · rw [hfile, hreads]
    exact hplace hsettled'

/-! ### The start of a call -/

theorem chkReadConditions_le {v : View} {nbyte : Nat} {ret : Int} {err : Option Errno}
    (h : s.chkReadConditions E v nbyte = .ok (some (ret, err))) : ret ≤ 0 := by
  unfold chkReadConditions at h
  split at h
  · cases h
    decide
  · obtain ⟨_, -, h⟩ := bind_eq_ok.mp h
    split at h
    · cases h
      decide
    · split at h
      · cases h
        decide
      · split at h
        · cases h
          decide
        · split at h <;> simp only at h <;> split at h <;> cases h <;> decide

theorem Mixed.call {v : View} {c : Call} (h : Mixed E init s) (hidle : s.foreground = .idle)
    (hcall : ∀ immediate, c ≠ .efSync ∧ c ≠ .efClose immediate) (hinv : PipelineInv s')
    (hstep : s.callStep E v c = .ok s') : Mixed E init s' := by
  have hinc := h.incomplete (by rw [hidle]; rfl)
  cases c with
  | efWrite buf =>
    obtain rfl | ⟨-, rfl⟩ := callStep_efWrite hstep
    · exact h
    · exact h.goto hinv rfl (by rw [hidle]; rfl) (by rw [hidle]; rfl) (.outside rfl hinc)
  | efRead nbyte =>
    obtain ⟨ret, err, hchk, rfl⟩ | ⟨-, rfl⟩ := callStep_efRead hstep
    · exact h.finish hinv rfl (chkReadConditions_le hchk) (by rw [hidle]; rfl) (by rw [hidle]; rfl)
        h.reads hinc
    · exact h.goto hinv rfl (by rw [hidle]; rfl) (by rw [hidle]; rfl) (.outside rfl hinc)
  | efSync => exact absurd rfl (hcall true).1
  | efClose immediate => exact absurd rfl (hcall immediate).2

/-! ### `ef_read` -/

theorem Mixed.dispatch (h : Mixed E init s) {nbyte : Nat} {po : Int}
    (hfg : s.foreground = .readSnapshot nbyte) (hinv : PipelineInv s')
    (hstep : s.readDispatch nbyte po = .ok s') : Mixed E init s' := by
  have hinc := h.incomplete (by rw [hfg]; rfl)
  have hpush : foregroundPush s.foreground = none := by rw [hfg]; rfl
  have hbytes : restOf s.foreground = [] := by rw [hfg]; rfl
  obtain ⟨r, htest, hok⟩ := bind_eq_ok.mp hstep
  obtain ⟨-, ⟨rfl, hnull⟩ | ⟨id, a, rfl, hact⟩⟩ := testAction_eq_ok htest
  · cases hok
    exact h.goto hinv rfl hpush.symm hbytes.symm
      (.drop (h.settled (not_isWrite_of_null hnull)) (h.reads.nil_of_null hnull))
  · -- A complete action of another kind is freed, or left to `readDrop`.
    have hfree : ∀ {k}, a.cmd ≠ .operWrite → dropGoes k →
        (a.cmd = .operRead → a.actionStatus = .actionComplete) →
        MixedPlace s.file (backlog s) s.action s.fileReads (.freeing (.acquire 0) k) :=
      fun hcmd hk hcomplete => .free hk (h.settled (not_isWrite_of_live hact hcmd))
        (h.reads.nil_of_complete hact hcomplete)
    have hdrop : a.cmd ≠ .operWrite → (a.cmd = .operRead → a.actionStatus = .actionComplete) →
        MixedPlace s.file (backlog s) s.action s.fileReads (.readDrop nbyte po) :=
      fun hcmd hcomplete => .drop (h.settled (not_isWrite_of_live hact hcmd))
        (h.reads.nil_of_complete hact hcomplete)
    simp only at hok
    split at hok
    · rename_i hcmd
      split at hok
      · cases hok
        exact h.goto hinv rfl hpush.symm hbytes.symm
          (hfree (by rw [hcmd]; nofun) trivial (by rw [hcmd]; nofun))
      · cases hok
        exact h.finish hinv rfl (by decide) hpush hbytes h.reads hinc
    · rename_i hcmd
      split at hok
      · cases hok
        exact h.finish hinv rfl (by decide) hpush hbytes h.reads hinc
      · rename_i hdone
        have hcomplete : a.actionStatus = .actionComplete := not_not.mp (not_or.mp hdone).1
        have hplace : ∀ {k}, dropGoes k →
            MixedPlace s.file (backlog s) s.action s.fileReads (.freeing (.acquire 0) k) :=
          fun hk => hfree (by rw [hcmd]; nofun) hk fun _ => hcomplete
        split at hok
        · cases hok
          exact h.goto hinv rfl hpush.symm hbytes.symm (hplace (show (-1 : Int) ≤ 0 by decide))
        · split at hok <;> cases hok
          · exact h.goto hinv rfl hpush.symm hbytes.symm (hplace (show (0 : Int) ≤ 0 by decide))
          · exact h.goto hinv rfl hpush.symm hbytes.symm (hplace trivial)
    · rename_i hcmd
      cases hok
      exact h.goto hinv rfl hpush.symm hbytes.symm (.sync (.of_incomplete hinc hact hcmd) trivial)
    · rename_i hcmd
      split at hok <;> cases hok
      · exact h.finish hinv rfl (by decide) hpush hbytes h.reads hinc
      · exact h.goto hinv rfl hpush.symm hbytes.symm (hdrop (by rw [hcmd]; nofun) (by rw [hcmd]; nofun))
    · rename_i hcmd
      split at hok <;> cases hok
      · exact h.finish hinv rfl (by decide) hpush hbytes h.reads hinc
      · exact h.goto hinv rfl hpush.symm hbytes.symm (hdrop (by rw [hcmd]; nofun) (by rw [hcmd]; nofun))

theorem Mixed.test (h : Mixed E init s) {nbyte : Nat} {po : Int} {v : View}
    (hfg : s.foreground = .readTest nbyte po) (hinv : PipelineInv s')
    (hstep : s.readStep E v (.readTest nbyte po) = .ok s') : Mixed E init s' := by
  obtain ⟨hwrite, hsettled⟩ : IsWrite s.action ∧
      ∀ id a, s.action = .live id a → a.actionStatus = .actionComplete → Settled (backlog s) := by
    have hplace := h.place
    rw [hfg] at hplace
    cases hplace with
    | outside hpc => cases hpc
    | test hwrite hsettled => exact ⟨hwrite, hsettled⟩
  obtain ⟨⟨id, a⟩, hd, hok⟩ := bind_eq_ok.mp hstep
  obtain ⟨-, hact⟩ := derefAction_eq_ok.mp hd
  simp only at hok
  split at hok
  · rename_i hopen
    cases hok
    refine h.finish hinv rfl (by decide) (by rw [hfg]; rfl) (by rw [hfg]; rfl) h.reads ?_
    intro id' a' hact' _
    obtain ⟨-, rfl⟩ := ActionPtr.live.inj (hact.symm.trans hact')
    exact hopen
  · rename_i hcomplete
    cases hok
    exact h.goto hinv rfl (by rw [hfg]; rfl) (by rw [hfg]; rfl)
      (.drop (hsettled id a hact (not_not.mp hcomplete)) (h.reads.nil_of_isWrite hwrite))

theorem Mixed.drop (h : Mixed E init s) {nbyte : Nat} {po : Int} {v : View}
    (hfg : s.foreground = .readDrop nbyte po) (hinv : PipelineInv s')
    (hstep : s.readStep E v (.readDrop nbyte po) = .ok s') : Mixed E init s' := by
  obtain ⟨hsettled, hjs⟩ : Settled (backlog s) ∧ s.fileReads = [] := by
    have hplace := h.place
    rw [hfg] at hplace
    cases hplace with
    | outside hpc => cases hpc
    | drop hsettled hjs => exact ⟨hsettled, hjs⟩
  obtain ⟨r, htest, hok⟩ := bind_eq_ok.mp hstep
  obtain ⟨-, ⟨rfl, hnull⟩ | ⟨id, a, rfl, hact⟩⟩ := testAction_eq_ok htest
  · cases hok
    exact h.goto hinv rfl (by rw [hfg]; rfl) (by rw [hfg]; rfl)
      (.buffer hsettled hjs (incomplete_of_not_isWrite (not_isWrite_of_null hnull)))
  · simp only at hok
    split at hok
    · cases hok
      exact h.goto hinv rfl (by rw [hfg]; rfl) (by rw [hfg]; rfl) (.free trivial hsettled hjs)
    · rename_i hopen
      cases hok
      refine h.goto hinv rfl (by rw [hfg]; rfl) (by rw [hfg]; rfl) (.buffer hsettled hjs ?_)
      intro id' a' hact' _
      obtain ⟨-, rfl⟩ := ActionPtr.live.inj (hact.symm.trans hact')
      exact hopen

/-- The copy agrees with a read of the plain file. -/
theorem matches_copy {history : List Observed} {f : EfFile} {b : List UInt8}
    (h : Matches E init history f []) (hclean : f.buf.isDirty = false)
    (hb : f.buf.buffer = some b) (nbyte : Nat) :
    ∃ (f' : EfFile) (n : Nat) (bytes : List UInt8),
      readTransfer E f b nbyte (pageOffset E f) = .ok (f', (n : Int), none, bytes) ∧
      f'.buf.isDirty = false ∧
      Matches E init (history ++ [.readReturned nbyte n none bytes]) f' [] := by
  obtain ⟨content, p, hagrees, hfile, hcontent, hoffset⟩ := h
  rw [writeAt_nil_of_le hfile.offset_le] at hcontent
  rw [List.length_nil, Nat.add_zero] at hoffset
  obtain ⟨f', hread, hpaged, hclean', hmode, hoff⟩ := readTransfer_paged hfile.toPagedFile hclean hb nbyte
  refine ⟨f', _, _, hread, hclean', ?_⟩
  have hover : OverwriteFile E f' content := ⟨hpaged, by rw [hmode.oflag]; exact hfile.readable,
    by rw [hmode.oflag]; exact hfile.notAppend, hmode.append.trans hfile.append,
    hmode.unaligned.trans hfile.aligned⟩
  obtain ⟨n, hn⟩ : ∃ n, readSize E f content nbyte = n := ⟨_, rfl⟩
  have hle : n ≤ nbyte ∧ n ≤ content.length - f.fileOffset := by
    rw [← hn, readSize]
    omega
  have hstart := hfile.offset_le
  rw [hn] at hoff ⊢
  cases n with
  | zero =>
    rw [List.take_zero]
    refine ⟨content, p, hagrees.noBytes nbyte 0 none (Int.le_refl 0), hover, ?_, ?_⟩
    · rw [writeAt_nil_of_le hpaged.offset_le, hcontent]
    · rw [hoff, hoffset]
      rfl
  | succ n =>
    have hbytes : (content.drop f.fileOffset).take (n + 1) = p.bytes (n + 1) := by
      rw [PlainFile.bytes, ← hcontent, ← hoffset]
    rw [hbytes]
    refine ⟨content, p.advance (n + 1), hagrees.bytes nbyte (n + 1) (Nat.succ_pos n) hle.1 ?_, hover,
      ?_, ?_⟩
    · rw [← hcontent, ← hoffset]
      omega
    · rw [writeAt_nil_of_le hpaged.offset_le, hcontent]
      rfl
    · rw [hoff, hoffset]
      rfl

/-- Without outstanding bytes the file is the plain file. -/
theorem Mixed.stands_settled (h : Mixed E init s) (hsettled : Settled (backlog s))
    (hbytes : restOf s.foreground = []) : Matches E init s.history s.file [] := by
  have hstands := h.stands
  rwa [pending, settled_outstanding hsettled, hbytes] at hstands

theorem Mixed.buffer (h : Mixed E init s) {nbyte : Nat} {po : Int} {v : View}
    (hfg : s.foreground = .readBuffer nbyte po)
    (hcopy : s.file.buf.buffer ≠ none → po = pageOffset E s.file) (hinv : PipelineInv s')
    (hstep : s.readStep E v (.readBuffer nbyte po) = .ok s') : Mixed E init s' := by
  obtain ⟨hsettled, hjs, hinc⟩ : Settled (backlog s) ∧ s.fileReads = [] ∧ Incomplete s.action := by
    have hplace := h.place
    rw [hfg] at hplace
    cases hplace with
    | outside hpc => cases hpc
    | buffer hsettled hjs hinc => exact ⟨hsettled, hjs, hinc⟩
  obtain ⟨_, -, hok⟩ := bind_eq_ok.mp hstep
  cases hb : s.file.buf.buffer with
  | none =>
    simp only [hb] at hok
    obtain ⟨r, htest, hok⟩ := bind_eq_ok.mp hok
    obtain ⟨-, ⟨rfl, hnull⟩ | ⟨id, a, rfl, hact⟩⟩ := testAction_eq_ok htest
    · cases hok
      exact h.goto hinv rfl (by rw [hfg]; rfl) (by rw [hfg]; rfl) (.fire hnull hb)
    · cases hok
      exact h.finish hinv rfl (by decide) (by rw [hfg]; rfl) (by rw [hfg]; rfl) h.reads hinc
  | some b =>
    simp only [hb] at hok
    obtain ⟨⟨file, ret, err, bytes⟩, hread, hok⟩ := bind_eq_ok.mp hok
    cases hok
    obtain ⟨f', n, bytes', hread', hclean, hstands⟩ :=
      matches_copy (h.stands_settled hsettled (by rw [hfg]; rfl)) hsettled.clean hb nbyte
    rw [hcopy (by rw [hb]; nofun)] at hread
    cases hread.symm.trans hread'
    have hback : backlog ({ s with file := file }.finishRead nbyte n none bytes)
        = { backlog s with file := file } := by
      unfold backlog backlogWith
      rw [show pushOf s = pushOf ({ s with file := file }.finishRead nbyte n none bytes) by
        rw [pushOf, hfg]; rfl]
      rfl
    have hsettled' : Settled (backlog ({ s with file := file }.finishRead nbyte n none bytes)) := by
      rw [hback]
      exact ⟨hsettled.accum, hsettled.waiting, hsettled.queue, hclean⟩
    refine h.of_frame false hinv ⟨rfl, .same⟩ (Or.inl ?_) ?_ ?_ (.outside rfl hinc)
    · exact hclean.trans hsettled.clean.symm
    · rw [pending, settled_outstanding hsettled']
      exact hstands
    · show PageRead file s.action s.fileReads
      rw [hjs]
      exact .none

theorem Mixed.fire (h : Mixed E init s) {nbyte : Nat} {v : View}
    (hfg : s.foreground = .readFire nbyte) (hinv : PipelineInv s')
    (hstep : s.readStep E v (.readFire nbyte) = .ok s') : Mixed E init s' := by
  obtain ⟨hnull, hbuf⟩ : s.action = .null ∧ s.file.buf.buffer = none := by
    have hplace := h.place
    rw [hfg] at hplace
    cases hplace with
    | outside hpc => cases hpc
    | fire hnull hbuf => exact ⟨hnull, hbuf⟩
  obtain ⟨_, -, hok⟩ := bind_eq_ok.mp hstep
  split at hok
  · cases hok
  · split at hok
    · cases hok
    · cases hok
      exact h.goto hinv rfl (by rw [hfg]; rfl) (by rw [hfg]; rfl)
        (.allocRead hnull hbuf (h.reads.nil_of_null hnull))

theorem Mixed.enqueue (h : Mixed E init s) {nbyte : Nat} {v : View}
    (hfg : s.foreground = .readEnqueue nbyte) (hinv : PipelineInv s')
    (hstep : s.readStep E v (.readEnqueue nbyte) = .ok s') : Mixed E init s' := by
  obtain ⟨hwork, hbuf, hjs⟩ :
      Working .operRead s.action ∧ s.file.buf.buffer = none ∧ s.fileReads = [] := by
    have hplace := h.place
    rw [hfg] at hplace
    cases hplace with
    | outside hpc => cases hpc
    | enqueue hwork hbuf hjs => exact ⟨hwork, hbuf, hjs⟩
  obtain ⟨_, -, hok⟩ := bind_eq_ok.mp hstep
  cases hok
  refine h.finish hinv rfl (by decide) (by rw [hfg]; rfl) (by rw [hfg]; rfl) ?_ hwork.incomplete
  show PageRead s.file s.action (s.fileReads ++ [ReadJob.queued s.file.buf.bufferIndex])
  rw [hjs]
  exact .queued hwork hbuf

/-! ### `ef_write` -/

/-- The bytes outstanding while no push is under way. -/
theorem outstanding_of_live {id : Nat} {inp : WriteOper} (hsome : liveWrite s = some (id, inp)) :
    (backlogWith s none).outstanding
      = payload (s.pushed.drop s.executed.length) ++ inp.wAccum := by
  simp only [Backlog.outstanding, backlogWith, flowWith, WriteFlow.backlog, countedTask, waitingTask,
    hsome, Option.map_some, Option.getD_some, Option.toList_none, List.append_nil]

/-- The bytes outstanding while a full page is about to be pushed. -/
theorem outstanding_of_count {id : Nat} {inp : WriteOper} {w : WriteTask}
    (hsome : liveWrite s = some (id, inp)) :
    (backlogWith s (some (.count w))).outstanding
      = payload (s.pushed.drop s.executed.length) ++ (taskPayload w ++ inp.wAccum) := by
  simp only [Backlog.outstanding, backlogWith, flowWith, WriteFlow.backlog, countedTask, waitingTask,
    hsome, Option.map_some, Option.getD_some, List.append_nil, Option.toList_some, payload,
    List.flatMap_append, List.flatMap_singleton, List.append_assoc]

/-- The thread that holds `_write_suspended` knows the push. -/
theorem Mixed.backlog_eq (h : Mixed E init s) (htag : foregroundTag s.foreground ≠ none) :
    backlog s = backlogWith s (foregroundPush s.foreground) := by
  rw [backlog, pushOf, h.inv.locks.slow_push htag, Option.or_none]

theorem Mixed.loop (h : Mixed E init s) {buf : List UInt8} {done : Nat}
    (hfg : s.foreground = .writeLoop buf done) (hinv : PipelineInv s')
    (hstep : s.writeStep E (.writeLoop buf done) = .ok s') : Mixed E init s' := by
  have hwork : Working .operWrite s.action := by
    have hplace := h.place
    rw [hfg] at hplace
    cases hplace with
    | outside hpc => cases hpc
    | loop hwork => exact hwork
  have hjs := h.reads.nil_of_isWrite hwork.isWrite
  have htag : foregroundTag s.foreground ≠ none := by rw [hfg]; nofun
  have hslow := h.inv.locks.slow_push htag
  have hback := h.backlog_eq htag
  simp only [writeStep] at hstep
  split at hstep
  · rename_i hend
    cases hstep
    refine h.goto hinv rfl (by rw [hfg]; rfl) ?_ (.outside rfl hwork.incomplete)
    rw [hfg]
    exact (List.drop_eq_nil_of_le hend).symm
  · obtain ⟨⟨id, a, inp⟩, hd, hok⟩ := bind_eq_ok.mp hstep
    obtain ⟨hlive, hact, hinp⟩ := derefWriteInp_eq_ok.mp hd
    have hcmd : a.cmd = .operWrite := by
      obtain ⟨id', a', hact', hcmd, -⟩ := hwork
      obtain ⟨-, rfl⟩ := ActionPtr.live.inj (hact.symm.trans hact')
      exact hcmd
    have hsome := liveWrite_eq_some.mpr ⟨hlive, a, hact, hcmd, hinp⟩
    obtain ⟨n, hn⟩ : ∃ n, min (buf.length - done) (E.pageSize - inp.wAccum.length) = n := ⟨_, rfl⟩
    have hsplit : (buf.drop done).take n ++ buf.drop (done + n) = buf.drop done := by
      rw [← List.drop_drop, List.take_append_drop]
    -- The accepted bytes move from the call into the accumulator.
    have hold : pending s = payload (s.pushed.drop s.executed.length)
        ++ ((inp.wAccum ++ (buf.drop done).take n) ++ buf.drop (done + n)) := by
      rw [pending, hback, hfg]
      show (backlogWith s none).outstanding ++ buf.drop done = _
      rw [outstanding_of_live hsome, List.append_assoc, List.append_assoc, hsplit]
    have hreads : ∀ p, PageRead s.file p s.fileReads := fun p => by
      rw [hjs]
      exact .none
    simp only [hn] at hok
    split at hok
    · cases hok
    · split at hok <;> cases hok
      · refine h.of_frame false hinv ⟨rfl, .setWriteInp hact hinp _⟩ (Or.inl rfl) ?_
          (hreads _) (.push (Stores.working (.setWriteInp hact hinp _) hwork))
        have hnew := liveWrite_setWriteInp s id hlive hcmd { inp with wAccum := [] }
        refine (show pending _ = pending s from ?_) ▸ h.stands
        rw [hold]
        show (backlogWith (s.setWriteInp id a { inp with wAccum := [] }) (some (.count _))).outstanding
          ++ buf.drop (done + n) = _
        rw [outstanding_of_count hnew, List.append_nil, List.append_assoc]
        rfl
      · refine h.of_frame false hinv ⟨rfl, .setWriteInp hact hinp _⟩ (Or.inl rfl) ?_
          (hreads _) (.loop (Stores.working (.setWriteInp hact hinp _) hwork))
        have hnew := liveWrite_setWriteInp s id hlive hcmd
          { inp with wAccum := inp.wAccum ++ (buf.drop done).take n }
        refine (show pending _ = pending s from ?_) ▸ h.stands
        rw [hold, pending, backlog, pushOf]
        show (backlogWith _ (Option.or none (s.slowSync.bind syncPush))).outstanding
          ++ buf.drop (done + n) = _
        rw [hslow]
        show (backlogWith (s.setWriteInp id a _) none).outstanding ++ buf.drop (done + n) = _
        rw [outstanding_of_live hnew, List.append_assoc]
        rfl

theorem Mixed.ensure (h : Mixed E init s) {buf : List UInt8} (hfg : s.foreground = .writeEnsure buf)
    (hinv : PipelineInv s') (hstep : s.writeStep E (.writeEnsure buf) = .ok s') :
    Mixed E init s' := by
  have hact : s.action = .null ∨ Working .operWrite s.action := by
    have hplace := h.place
    rw [hfg] at hplace
    cases hplace with
    | outside hpc => cases hpc
    | ensure hact => exact hact
  obtain ⟨_, -, hok⟩ := bind_eq_ok.mp hstep
  have hstands := h.stands.accept buf
  rw [pending, show restOf s.foreground = [] by rw [hfg]; rfl, List.append_nil] at hstands
  have hback : ∀ pc history, foregroundPush pc = none →
      backlog { s with foreground := pc, history := history } = backlog s := fun pc history hpush =>
    backlog_goto rfl rfl rfl rfl rfl (by rw [hfg]; exact hpush)
  by_cases hnull : s.action = .null
  · rw [if_pos hnull] at hok
    cases hok
    refine h.of_frame false hinv ⟨rfl, .same⟩ (Or.inl rfl) ?_ h.reads
      (.allocWrite hnull)
    rw [pending, hback _ _ rfl]
    exact hstands
  · rw [if_neg hnull] at hok
    cases hok
    refine h.of_frame false hinv ⟨rfl, .same⟩ (Or.inl rfl) ?_ h.reads
      (.loop (hact.resolve_left hnull))
    rw [pending, hback _ _ rfl]
    exact hstands

theorem Mixed.write (h : Mixed E init s) {pc : ForegroundPc} (hfg : s.foreground = pc)
    (hinv : PipelineInv s') (hstep : s.writeStep E pc = .ok s') : Mixed E init s' := by
  have hinc : outsidePlace pc = true → Incomplete s.action := fun hpc => h.incomplete (hfg ▸ hpc)
  have hcases := hstep
  unfold writeStep at hcases
  split at hcases
  · obtain ⟨_, -, hok⟩ := bind_eq_ok.mp hcases
    cases hok
    refine h.goto hinv rfl ?_ ?_ ?_
    · rw [hfg]
      show foregroundPush (if _ then _ else _) = _
      split <;> rfl
    · rw [hfg]
      show restOf (if _ then _ else _) = _
      split <;> rfl
    · show MixedPlace _ _ _ _ (if _ then _ else _)
      split <;> exact .outside rfl (hinc rfl)
  · obtain ⟨r, htest, hok⟩ := bind_eq_ok.mp hcases
    obtain ⟨-, ⟨rfl, hnull⟩ | ⟨id, a, rfl, hact⟩⟩ := testAction_eq_ok htest
    · cases hok
      exact h.goto hinv rfl (by rw [hfg]; rfl) (by rw [hfg]; rfl) (.ensure (Or.inl hnull))
    · simp only at hok
      split at hok
      · rename_i hcomplete
        have hno : a.cmd ≠ .operWrite := fun hcmd => hinc rfl id a hact hcmd hcomplete
        cases hok
        exact h.goto hinv rfl (by rw [hfg]; rfl) (by rw [hfg]; rfl)
          (.free trivial (h.settled (not_isWrite_of_live hact hno))
            (h.reads.nil_of_complete hact fun _ => hcomplete))
      · split at hok
        · cases hok
          exact h.goto hinv rfl (by rw [hfg]; rfl) (by rw [hfg]; rfl) (.outside rfl (hinc rfl))
        · rename_i hcmd
          cases hok
          exact h.goto hinv rfl (by rw [hfg]; rfl) (by rw [hfg]; rfl)
            (.ensure (Or.inr (.of_incomplete (hinc rfl) hact (not_not.mp hcmd))))
  · exact h.ensure hfg hinv hstep
  · exact h.loop hfg hinv hstep
  · obtain ⟨_, -, hok⟩ := bind_eq_ok.mp hcases
    simp only at hok
    split at hok
    · cases hok
    · cases hok
      exact h.goto hinv rfl (by rw [hfg]; rfl) (by rw [hfg]; rfl) (.outside rfl (hinc rfl))
  · cases hcases
    exact h

/-! ### The shared pieces of code -/

theorem Mixed.push (hE : E.Reliable) (h : Mixed E init s) {p : PushPc} {k : AfterPush}
    (hfg : s.foreground = .pushing p k) {next : Option PushPc} {s₁ : PipelineState}
    (hinv : PipelineInv { s₁ with foreground := next.elim (afterPush k) (.pushing · k) })
    (hstep : s.pushStep p = .ok (s₁, next)) :
    Mixed E init { s₁ with foreground := next.elim (afterPush k) (.pushing · k) } := by
  obtain ⟨buf, done, rfl, hwork⟩ : ∃ buf done, k = .write buf done ∧ Working .operWrite s.action := by
    have hplace := h.place
    rw [hfg] at hplace
    cases hplace with
    | outside hpc => cases hpc
    | push hwork => exact ⟨_, _, rfl, hwork⟩
  have htag : foregroundTag s.foreground ≠ none := by rw [hfg]; nofun
  have hslow := h.inv.locks.slow_push htag
  have hback : backlog s = backlogWith s (some p) := by
    rw [h.backlog_eq htag, hfg]
    rfl
  have hflow : FlowInv (flowWith s (some p)) := by
    have hpush : pushOf s = some p := by
      rw [pushOf, hfg]
      rfl
    exact hpush ▸ h.inv.flow
  have hframe := (pushStep_frame hwork.isWrite hstep).1
  have hnew : backlog { s₁ with
      foreground := next.elim (afterPush (.write buf done)) (.pushing · (.write buf done)) }
      = backlogWith s₁ next := by
    rw [backlog, pushOf]
    show backlogWith _ (Option.or _ (s₁.slowSync.bind syncPush)) = _
    rw [hframe.slowSync, hslow, Option.or_none]
    cases next <;> rfl
  refine h.of_code hE hinv hframe hwork.isWrite ?_ ?_ ?_
  · rw [hnew, hback]
    exact pushStep_backlog hflow hstep
  · rw [hfg]
    cases next <;> rfl
  · have hwork' := hframe.action.working hwork
    cases next with
    | none => exact .loop hwork'
    | some q => exact .push hwork'

theorem Mixed.free (h : Mixed E init s) {p : FreePc} {k : AfterFree}
    (hfg : s.foreground = .freeing p k) {next : Option FreePc} {s₁ : PipelineState}
    (hstep : s.freeStep p = .ok (s₁, next))
    (hinv : PipelineInv (match next with
      | some p => { s₁ with foreground := .freeing p k }
      | none => s₁.afterFree k)) :
    Mixed E init (match next with
      | some p => { s₁ with foreground := .freeing p k }
      | none => s₁.afterFree k) := by
  obtain ⟨hk, hsettled, hjs⟩ : dropGoes k ∧ Settled (backlog s) ∧ s.fileReads = [] := by
    have hplace := h.place
    rw [hfg] at hplace
    cases hplace with
    | outside hpc => cases hpc
    | free hk hsettled hjs => exact ⟨hk, hsettled, hjs⟩
  have hpush : foregroundPush s.foreground = none := by rw [hfg]; rfl
  have hbytes : restOf s.foreground = [] := by rw [hfg]; rfl
  cases p with
  | acquire expected =>
    obtain ⟨_, -, hok⟩ := bind_eq_ok.mp hstep
    cases hok
    exact h.goto hinv rfl hpush.symm hbytes.symm (.free hk hsettled hjs)
  | cleanup =>
    obtain ⟨⟨id, a⟩, -, hok⟩ := bind_eq_ok.mp hstep
    simp only at hok
    split at hok
    · cases hok
    · cases hok
      refine h.replace hinv rfl hsettled (fun id inp hlw => ?_) hpush.symm hbytes.symm hjs
        fun hsettled' => .free hk hsettled' hjs
      cases (liveWrite_of_not_live (s := { s with
        action := .freed
        foreground := .freeing .setNull k }) fun _ _ h => by cases h).symm.trans hlw
  | setNull =>
    obtain ⟨_, -, hok⟩ := bind_eq_ok.mp hstep
    cases hok
    refine h.replace hinv rfl hsettled (fun id inp hlw => ?_) hpush.symm hbytes.symm hjs
      fun hsettled' => .free hk hsettled' hjs
    cases (liveWrite_of_not_live (s := { s with
      action := .null
      foreground := .freeing .release k }) fun _ _ h => by cases h).symm.trans hlw
  | release =>
    have hnull := h.inv.own.null (by rw [hfg]; rfl)
    have hinc := incomplete_of_not_isWrite (not_isWrite_of_null hnull)
    obtain ⟨_, -, hok⟩ := bind_eq_ok.mp hstep
    cases hok
    cases k with
    | write buf => exact h.goto hinv rfl hpush.symm hbytes.symm (.ensure (Or.inl hnull))
    | readDone nbyte ret err => exact h.finish hinv rfl hk hpush hbytes h.reads hinc
    | readDrop nbyte po => exact h.goto hinv rfl hpush.symm hbytes.symm (.drop hsettled hjs)
    | readBuffer nbyte po => exact h.goto hinv rfl hpush.symm hbytes.symm (.buffer hsettled hjs hinc)
    | sync => exact absurd hk id
    | closeSync immediate => exact absurd hk id
    | closeAlloc immediate => exact absurd hk id

/-- A new action has nothing on its way. -/
theorem liveWrite_eioCmdInit {oper : FileOper} {id id' : Nat} {inp : WriteOper}
    (hact : s.action = .live id (eioCmdInit oper)) (hsome : liveWrite s = some (id', inp)) :
    inp.wAccum = [] ∧ inp.writeTotreqCount = 0 := by
  obtain ⟨-, a, hact', hcmd, hinp⟩ := liveWrite_eq_some.mp hsome
  obtain ⟨-, rfl⟩ := ActionPtr.live.inj (hact.symm.trans hact')
  obtain rfl : oper = .operWrite := hcmd
  cases hinp
  exact ⟨rfl, rfl⟩

theorem Mixed.alloc (h : Mixed E init s) {p : AllocPc} {oper : FileOper} {k : AfterAlloc}
    (hfg : s.foreground = .allocating p oper k) {next : Option AllocPc} {s₁ : PipelineState}
    (hinv : PipelineInv { s₁ with foreground := next.elim (afterAlloc k) (.allocating · oper k) })
    (hstep : s.allocStep oper p = .ok (s₁, next)) :
    Mixed E init { s₁ with foreground := next.elim (afterAlloc k) (.allocating · oper k) } := by
  have hpush : foregroundPush s.foreground = none := by rw [hfg]; rfl
  have hplace := h.place
  rw [hfg] at hplace
  cases p with
  | acquire expected =>
    obtain ⟨_, -, hok⟩ := bind_eq_ok.mp hstep
    cases hok
    refine h.goto hinv rfl hpush.symm ?_ ?_
    · rw [hfg]
      cases k <;> rfl
    · cases hplace with
      | outside hpc => cases hpc
      | allocWrite halloc =>
        refine .allocWrite ?_
        split <;> exact halloc
      | allocRead halloc hbuf hjs =>
        refine .allocRead ?_ hbuf hjs
        split <;> exact halloc
  | init =>
    have hnull := h.inv.own.null (by rw [hfg]; rfl)
    obtain ⟨_, -, hok⟩ := bind_eq_ok.mp hstep
    cases hok
    refine h.replace hinv rfl (h.settled (not_isWrite_of_null hnull))
      (fun id inp hlw => liveWrite_eioCmdInit rfl hlw) hpush.symm ?_ (h.reads.nil_of_null hnull)
      fun _ => ?_
    · rw [hfg]
      cases k <;> rfl
    · have hwork : Working oper (.live s.nextId (eioCmdInit oper)) := ⟨_, _, rfl, rfl, nofun⟩
      cases hplace with
      | outside hpc => cases hpc
      | allocWrite halloc => exact .allocWrite hwork
      | allocRead halloc hbuf hjs => exact .allocRead hwork hbuf hjs
  | release =>
    obtain ⟨_, -, hok⟩ := bind_eq_ok.mp hstep
    cases hok
    cases hplace with
    | outside hpc => cases hpc
    | allocWrite halloc => exact h.goto hinv rfl hpush.symm (by rw [hfg]; rfl) (.loop halloc)
    | allocRead halloc hbuf hjs =>
      exact h.goto hinv rfl hpush.symm (by rw [hfg]; rfl) (.enqueue halloc hbuf hjs)

/-! ### `SET_WRITE_ACTION_STATUS` -/

/-- The count in the backlog is that of the live write action. -/
theorem totreq_eq {id : Nat} {inp : WriteOper} (hsome : liveWrite s = some (id, inp)) :
    (backlog s).totreq = inp.writeTotreqCount := by
  simp only [backlog, backlogWith, flowWith, WriteFlow.backlog, hsome, Option.map_some, Option.getD_some]

theorem Mixed.set (hE : E.Reliable) (h : Mixed E init s) {p : SetPc} {k : AfterSync}
    (hfg : s.foreground = .setting p k) {next : Option SetPc} {s₁ : PipelineState}
    (hinv : PipelineInv { s₁ with foreground := next.elim (afterSet k) (.setting · k) })
    (hstep : s.setStep p = .ok (s₁, next)) :
    Mixed E init { s₁ with foreground := next.elim (afterSet k) (.setting · k) } := by
  obtain ⟨nbyte, po, rfl, hwork, hmet⟩ :
      ∃ nbyte po, k = .read nbyte po ∧ Working .operWrite s.action ∧ Met (backlog s) p := by
    have hplace := h.place
    rw [hfg] at hplace
    cases hplace with
    | outside hpc => cases hpc
    | set hwork hmet => exact ⟨_, _, rfl, hwork, hmet⟩
  have hframe := (setStep_frame hstep).1
  have hback : backlog { s₁ with
      foreground := next.elim (afterSet (.read nbyte po)) (.setting · (.read nbyte po)) }
      = backlog s := by
    rw [backlog, backlog, pushOf, pushOf, hfg]
    show backlogWith s₁ (Option.or _ (s₁.slowSync.bind syncPush)) = _
    rw [hframe.slowSync, ← setStep_backlog hstep]
    cases next <;> rfl
  obtain ⟨id, a, hact, hcmd, hopen⟩ := hwork
  have hwrite : IsWrite s.action := ⟨id, a, hact, hcmd⟩
  refine h.of_code hE hinv hframe hwrite ?_ ?_ ?_
  · rw [hback]
    exact .same
  · rw [hfg]
    cases next <;> rfl
  · rw [hback]
    cases p with
    | readTotreq =>
      obtain ⟨r, htest, hok⟩ := bind_eq_ok.mp hstep
      obtain ⟨hlive, ⟨rfl, hnull⟩ | ⟨id', a', rfl, hact'⟩⟩ := testAction_eq_ok htest
      · cases hnull.symm.trans hact
      · obtain ⟨rfl, rfl⟩ := ActionPtr.live.inj (hact.symm.trans hact')
        simp only [hcmd, ne_eq, not_true_eq_false, if_false] at hok
        split at hok
        · cases hok
        · rename_i inp hinp
          cases hok
          refine .set ⟨id, a, hact, hcmd, hopen⟩ ?_
          rw [← totreq_eq (liveWrite_eq_some.mpr ⟨hlive, a, hact, hcmd, hinp⟩)]
          exact endsCleanAt_totreq hmet
    | compare totreq =>
      obtain ⟨⟨id', a', inp⟩, hd, hok⟩ := bind_eq_ok.mp hstep
      obtain ⟨hlive, hact', hinp⟩ := derefWriteInp_eq_ok.mp hd
      obtain ⟨rfl, rfl⟩ := ActionPtr.live.inj (hact.symm.trans hact')
      have hsome := liveWrite_eq_some.mpr ⟨hlive, a, hact, hcmd, hinp⟩
      simp only at hok
      split at hok
      · rename_i hmeet
        cases hok
        refine .set ⟨id, a, hact, hcmd, hopen⟩ (settled_of_meet hmet ?_)
        rw [hmeet, totreq_eq hsome]
        exact backlog_le (h.inv.flow.flowing hsome) h.inv.fits hsome s.file
      · cases hok
        refine .test hwrite fun id' a' hact' hcomplete => ?_
        obtain ⟨-, rfl⟩ := ActionPtr.live.inj (hact.symm.trans hact')
        exact absurd hcomplete hopen
    | store =>
      obtain ⟨⟨id', a'⟩, -, hok⟩ := bind_eq_ok.mp hstep
      cases hok
      exact .test (hframe.action.isWrite_of hwrite) fun _ _ _ _ => hmet

/-! ### `sync_file_writes` of `ef_read` -/

/-- After `low_ef_sync` the accumulator is empty. -/
theorem lowEfSync_accum {next : Option PushPc} (hwrite : IsWrite s.action)
    (hstep : s.lowEfSync = .ok (s', next)) (push : Option PushPc) :
    (backlogWith s' push).accum = [] := by
  obtain ⟨id, a, hact, hcmd⟩ := hwrite
  obtain ⟨r, htest, hok⟩ := bind_eq_ok.mp hstep
  obtain ⟨hlive, ⟨rfl, hnull⟩ | ⟨id', a', rfl, hact'⟩⟩ := testAction_eq_ok htest
  · cases hnull.symm.trans hact
  · obtain ⟨rfl, rfl⟩ := ActionPtr.live.inj (hact.symm.trans hact')
    simp only [hcmd, ne_eq, not_true_eq_false, if_false] at hok
    split at hok
    · cases hok
    · rename_i inp hinp
      split at hok
      · rename_i hnil
        cases hok
        simp only [backlogWith, flowWith, WriteFlow.backlog,
          liveWrite_eq_some.mpr ⟨hlive, a, hact, hcmd, hinp⟩, Option.map_some, Option.getD_some, hnil]
      · cases hok
        simp only [backlogWith, flowWith, WriteFlow.backlog, liveWrite_setWriteInp s id hlive hcmd,
          Option.map_some, Option.getD_some]

/-- The push of the `fsync` task leaves a backlog that ends clean. -/
theorem pushStep_flushed (E : Env) {p : PushPc} {next : Option PushPc}
    (hflow : FlowInv (flowWith s (some p))) (hflushed : Flushed (backlogWith s (some p)) (.fsyncPush p))
    (hstep : s.pushStep p = .ok (s', next)) :
    Flushed (backlogWith s' next) (next.elim .resumeWrites .fsyncPush) := by
  cases p with
  | count w =>
    obtain ⟨rfl, hnew⟩ := pushCount_backlog hflow hstep
    rw [hnew]
    refine ⟨hflushed.1, nofun, ?_⟩
    unfold CleanAfter
    rw [List.getLast?_concat]
    exact hflushed.2
  | enqueue w =>
    have hclean := endsClean_step (E := E) hflushed (pushStep_backlog hflow hstep)
    obtain ⟨_, -, hok⟩ := bind_eq_ok.mp hstep
    cases hok
    exact hclean
  | init id =>
    have hclean := endsClean_step (E := E) hflushed (pushStep_backlog hflow hstep)
    obtain ⟨_, -, hok⟩ := bind_eq_ok.mp hstep
    cases hok
    exact hclean
  | post id =>
    have hclean := endsClean_step (E := E) hflushed (pushStep_backlog hflow hstep)
    cases hstep
    exact hclean

/-- The place after a step of `sync_file_writes` on an open file with a
write action that is not complete. -/
theorem syncStep_flushed (E : Env) (hlive : s.recordLive = true) (hslot : s.slot = true)
    (hopen : s.status = .fileOpen) (hwritable : s.file.oflag.has (O_RDWR ||| O_WRONLY))
    (hwork : Working .operWrite s.action) {q : SyncPc} {next : Option SyncPc}
    {other : Option PushPc} (hother : syncHolds q = true → other = none)
    (hflow : FlowInv (flowWith s ((syncPush q).or other)))
    (hflushed : Flushed (backlogWith s ((syncPush q).or other)) q)
    (hstep : s.syncStep q = .ok (s', next)) :
    match next with
    | some q' => Flushed (backlogWith s' ((syncPush q').or other)) q'
    | none => EndsClean (backlogWith s' other) := by
  obtain ⟨id, a, hact, hcmd, hstatus⟩ := hwork
  have htest : s.testAction = .ok (some (id, a)) := testAction_of_live hlive hact
  cases q with
  | lockHandle =>
    cases hstep
    simp only
    split <;> trivial
  | checkFile =>
    simp only [syncStep, hslot, derefRecord_of_live hlive, ok_bind, hopen, hwritable,
      ne_eq, not_true_eq_false, if_false] at hstep
    cases hstep
    trivial
  | lockAction =>
    obtain ⟨_, -, hok⟩ := bind_eq_ok.mp hstep
    cases hok
    simp only
    split <;> trivial
  | suspendWrites =>
    obtain ⟨_, -, hok⟩ := bind_eq_ok.mp hstep
    cases hok
    simp only
    split <;> trivial
  | testAction =>
    simp only [syncStep, htest, ok_bind, hcmd, ne_eq, not_true_eq_false, if_false] at hstep
    cases hstep
    trivial
  | awaitComplete => exact hflushed.elim
  | lowSync =>
    obtain ⟨⟨s₁, p⟩, hsync, hok⟩ := bind_eq_ok.mp hstep
    cases hok
    have haccum := lowEfSync_accum ⟨id, a, hact, hcmd⟩ hsync
    cases p <;> exact haccum _
  | lowSyncPush p =>
    obtain rfl := hother rfl
    obtain ⟨⟨s₁, p'⟩, hpush, hok⟩ := bind_eq_ok.mp hstep
    cases hok
    have haccum := accum_step hflushed (pushStep_backlog (E := E) hflow hpush)
    cases p' <;> exact haccum
  | fsync =>
    obtain rfl := hother rfl
    simp only [syncStep, htest, ok_bind, hcmd, hstatus, ne_eq, not_true_eq_false, or_self, if_false]
      at hstep
    split at hstep
    · cases hstep
    · cases hstep
      exact ⟨hflushed, rfl⟩
  | fsyncPush p =>
    obtain rfl := hother rfl
    obtain ⟨⟨s₁, p'⟩, hpush, hok⟩ := bind_eq_ok.mp hstep
    cases hok
    have hnext := pushStep_flushed E hflow hflushed hpush
    cases p' <;> exact hnext
  | resumeWrites =>
    obtain ⟨_, -, hok⟩ := bind_eq_ok.mp hstep
    cases hok
    exact hflushed
  | unlockAction =>
    obtain ⟨_, -, hok⟩ := bind_eq_ok.mp hstep
    cases hok
    exact hflushed
  | unlockHandle =>
    cases hstep
    exact hflushed

theorem Mixed.sync (hE : E.Reliable) (h : Mixed E init s) {p : SyncPc} {k : AfterSync}
    (hfg : s.foreground = .syncing p k) {next : Option SyncPc} {s₁ : PipelineState}
    (hinv : PipelineInv { s₁ with foreground := next.elim (.setting .readTotreq k) (.syncing · k) })
    (hstep : s.syncStep p = .ok (s₁, next)) :
    Mixed E init { s₁ with foreground := next.elim (.setting .readTotreq k) (.syncing · k) } := by
  obtain ⟨nbyte, po, rfl, hwork, hflushed⟩ :
      ∃ nbyte po, k = .read nbyte po ∧ Working .operWrite s.action ∧ Flushed (backlog s) p := by
    have hplace := h.place
    rw [hfg] at hplace
    cases hplace with
    | outside hpc => cases hpc
    | sync hwork hflushed => exact ⟨_, _, rfl, hwork, hflushed⟩
  obtain ⟨content, hfile⟩ := h.overwrites
  obtain ⟨hpush, hother⟩ := h.inv.locks.syncing_push hfg
  have hback : backlog s = backlogWith s ((syncPush p).or (s.slowSync.bind syncPush)) := by
    rw [backlog, hpush]
  have hflow : FlowInv (flowWith s ((syncPush p).or (s.slowSync.bind syncPush))) :=
    hpush ▸ h.inv.flow
  have hframe := (syncStep_frame (fun _ => hwork.isWrite) hstep).1
  have hnew : backlog { s₁ with
      foreground := next.elim (.setting .readTotreq (.read nbyte po)) (.syncing · (.read nbyte po)) }
      = backlogWith s₁ ((next.bind syncPush).or (s.slowSync.bind syncPush)) := by
    rw [backlog, pushOf]
    show backlogWith _ (Option.or _ (s₁.slowSync.bind syncPush)) = _
    rw [hframe.slowSync]
    cases next <;> rfl
  have hwork' := hframe.action.working hwork
  rw [hback] at hflushed
  have hwritable : s.file.oflag.has (O_RDWR ||| O_WRONLY) := OFlag.has_or.mpr (Or.inl hfile.readable)
  have hplace :=
    syncStep_flushed E h.live h.slot h.status hwritable hwork hother hflow hflushed hstep
  refine h.of_code hE hinv hframe hwork.isWrite ?_ ?_ ?_
  · rw [hnew, hback]
    exact syncStep_backlog hother hflow hstep
  · rw [hfg]
    cases next <;> rfl
  · rw [hnew]
    cases next with
    | none => exact .set hwork' hplace
    | some q => exact .sync hwork' hplace

end Efio.Proofs.Evio
