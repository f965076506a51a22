import Efio.Proofs.Evio.DiskContent
import Efio.Proofs.Evio.EngineFrame
import Efio.Proofs.Spec.WriteFlow
import Efio.Spec.Backlog
import Efio.Spec.PlainFile

/-!
# `Efio.Proofs.Spec.Backlog`: the background keeps what was promised

`Matches init history file total`: the file, with the bytes `total` still
to come, stands for the plain file that the calls of `history` lead to.
A step of the background keeps it (`Matches.step`), since the bytes it
executes are the first ones outstanding.

The three conditions on the end of a backlog are kept as well, and when
the counters meet, `EndsCleanAt` becomes `Settled` (`settled_of_meet`).
-/

set_option autoImplicit false

namespace Efio.Proofs.Spec

open Efio.Lib
open Efio.Evio
open Efio.Spec
open Efio.Spec.Backlog
open Efio.Proofs.Evio

variable {E : Env} {init : List UInt8} {history : List Observed} {b b' : Backlog}

/-! ### The plain file -/

/-- The file with the bytes `total` to come is the plain file of the
history. -/
def Matches (E : Env) (init : List UInt8) (history : List Observed) (file : EfFile)
    (total : List UInt8) : Prop :=
  ∃ content p, Agrees init history p ∧ OverwriteFile E file content ∧
    writeAt content file.fileOffset total = p.content ∧ file.fileOffset + total.length = p.offset

/-- A task of the queue goes into the file. -/
theorem Matches.exec (hE : E.Reliable) {f : EfFile} {w : WriteTask} {total : List UInt8}
    (h : Matches E init history f (taskPayload w ++ total)) {f' : EfFile} {n : Nat}
    (hexec : execTask E f w = .ok (f', n)) : Matches E init history f' total := by
  obtain ⟨content, p, hagrees, hfile, hcontent, hoffset⟩ := h
  obtain ⟨f₁, n₁, hexec₁, hfile₁, hoff₁, -⟩ := execTask_overwrite hE hfile w
  cases hexec.symm.trans hexec₁
  refine ⟨_, p, hagrees, hfile₁, ?_, ?_⟩
  · rw [hoff₁, writeAt_writeAt_append _ _ hfile.offset_le]
    exact hcontent
  · rw [hoff₁, ← hoffset, List.length_append, Nat.add_assoc]

/-- `ef_write` accepts `buf`. -/
theorem Matches.accept {f : EfFile} {total : List UInt8} (h : Matches E init history f total)
    (buf : List UInt8) : Matches E init (history ++ [.accepted buf]) f (total ++ buf) := by
  obtain ⟨content, p, hagrees, hfile, hcontent, hoffset⟩ := h
  refine ⟨content, p.write buf, hagrees.accepted buf, hfile, ?_, ?_⟩
  · rw [PlainFile.write, ← hcontent, ← hoffset]
    exact (writeAt_writeAt_append _ _ hfile.offset_le).symm
  · rw [PlainFile.write, List.length_append, ← Nat.add_assoc, hoffset]

/-- `ef_read` returns without bytes. -/
theorem Matches.noBytes {f : EfFile} {total : List UInt8} (h : Matches E init history f total)
    (nbyte : Nat) {ret : Int} (err : Option Errno) (hret : ret ≤ 0) :
    Matches E init (history ++ [.readReturned nbyte ret err []]) f total := by
  obtain ⟨content, p, hagrees, hfile, hcontent, hoffset⟩ := h
  exact ⟨content, p, hagrees.noBytes nbyte ret err hret, hfile, hcontent, hoffset⟩

theorem Matches.step (hE : E.Reliable) {rest : List UInt8}
    (h : Matches E init history b.file (b.outstanding ++ rest)) (hstep : BacklogStep E b b') :
    Matches E init history b'.file (b'.outstanding ++ rest) := by
  cases hstep with
  | same => exact h
  | exec hqueue hexec =>
    rename_i w tasks file n
    refine Matches.exec hE (w := w) ?_ hexec
    have hout : b.outstanding ++ rest
        = taskPayload w ++ (Backlog.outstanding { b with queue := tasks, file := file } ++ rest) := by
      simp [Backlog.outstanding, payload, hqueue]
    rwa [hout] at h
  | flush hnone hsome =>
    have hout : Backlog.outstanding { b with waiting := some ⟨.fileWriteEvt, b.accum⟩, accum := [] }
        = b.outstanding := by
      simp [Backlog.outstanding, payload, hnone, taskPayload]
    rwa [hout]
  | fsync hnone w hcmd =>
    have hout : Backlog.outstanding { b with waiting := some w } = b.outstanding := by
      simp [Backlog.outstanding, payload, hnone, taskPayload, hcmd]
    rwa [hout]
  | count hsome =>
    rename_i w
    have hout : Backlog.outstanding
        { b with queue := b.queue ++ [w], waiting := none, totreq := b.totreq + 1 }
        = b.outstanding := by
      simp [Backlog.outstanding, hsome]
    rwa [hout]

/-! ### The end of the backlog -/

theorem payload_of_onlySyncs {ws : List WriteTask} (h : OnlySyncs ws) : payload ws = [] :=
  List.flatMap_eq_nil_iff.mpr fun w hw => by rw [taskPayload, h w hw]

/-- No byte is outstanding. -/
theorem settled_outstanding (h : Settled b) : b.outstanding = [] := by
  rw [Backlog.outstanding, h.accum, List.append_nil]
  refine payload_of_onlySyncs fun w hw => ?_
  obtain hw | hw := List.mem_append.mp hw
  · exact h.queue w hw
  · exact h.waiting w hw

/-- An `fsync` task leaves a clean page, whatever became of `pwrite`. -/
theorem clean_of_fsync {f f' : EfFile} {w : WriteTask} {n : Nat} (hcmd : w.cmd = .fileFsyncEvt)
    (hexec : execTask E f w = .ok (f', n)) : f'.buf.isDirty = false := by
  simp only [execTask, hcmd] at hexec
  obtain ⟨g, hsync, hok⟩ := bind_eq_ok.mp hexec
  obtain ⟨g₀, hbuf, hsync⟩ := bind_eq_ok.mp hsync
  obtain ⟨fd, rfl⟩ := syncBufToFile_frame hbuf
  cases hok
  simp only at hsync
  split at hsync
  · cases hsync
    rfl
  · split at hsync <;> cases hsync <;> rfl

/-- The `fsync` at the end of the queue has been executed. -/
theorem cleanAfter_exec {f f' : EfFile} {w : WriteTask} {rest : List WriteTask} {n : Nat}
    (h : CleanAfter f (w :: rest)) (hexec : execTask E f w = .ok (f', n)) : CleanAfter f' rest := by
  cases hrest : rest.getLast? with
  | none =>
    obtain rfl := List.getLast?_eq_none_iff.mp hrest
    exact clean_of_fsync (show w.cmd = .fileFsyncEvt from h) hexec
  | some v =>
    unfold CleanAfter at h ⊢
    rw [List.getLast?_cons, hrest] at h
    rw [hrest]
    exact h

theorem onlySyncs_toList {w : WriteTask} (hcmd : w.cmd = .fileFsyncEvt) :
    OnlySyncs (some w).toList := fun v hv => by
  rw [List.mem_singleton.mp hv]
  exact hcmd

theorem onlySyncs_snoc {ws : List WriteTask} (h : OnlySyncs ws) {w : WriteTask}
    (hcmd : w.cmd = .fileFsyncEvt) : OnlySyncs (ws ++ [w]) := by
  intro v hv
  obtain hv | hv := List.mem_append.mp hv
  · exact h v hv
  · rw [List.mem_singleton.mp hv]
    exact hcmd

theorem waiting_cmd {w : WriteTask} (h : OnlySyncs b.waiting.toList) (hsome : b.waiting = some w) :
    w.cmd = .fileFsyncEvt := h w (by rw [hsome]; exact List.mem_singleton_self w)

theorem settled_step (h : Settled b) (hstep : BacklogStep E b b') : Settled b' := by
  cases hstep with
  | same => exact h
  | exec hqueue hexec =>
    rename_i w tasks file n
    have hq := h.queue
    rw [hqueue] at hq
    exact ⟨h.accum, h.waiting, fun v hv => hq v (List.mem_cons_of_mem _ hv),
      clean_of_fsync (hq w List.mem_cons_self) hexec⟩
  | flush hnone hsome => exact absurd h.accum hsome
  | fsync hnone w hcmd => exact ⟨h.accum, onlySyncs_toList hcmd, h.queue, h.clean⟩
  | count hsome => exact ⟨h.accum, nofun, onlySyncs_snoc h.queue (waiting_cmd h.waiting hsome), h.clean⟩

theorem endsClean_step (h : EndsClean b) (hstep : BacklogStep E b b') : EndsClean b' := by
  cases hstep with
  | same => exact h
  | exec hqueue hexec =>
    have hq := h.queue
    rw [hqueue] at hq
    exact ⟨h.accum, h.waiting, cleanAfter_exec hq hexec⟩
  | flush hnone hsome => exact absurd h.accum hsome
  | fsync hnone w hcmd => exact ⟨h.accum, onlySyncs_toList hcmd, h.queue⟩
  | count hsome =>
    refine ⟨h.accum, nofun, ?_⟩
    unfold CleanAfter
    rw [List.getLast?_concat]
    exact waiting_cmd h.waiting hsome

theorem endsCleanAt_step {totreq : Nat} (h : EndsCleanAt b totreq) (hstep : BacklogStep E b b') :
    EndsCleanAt b' totreq := by
  obtain ⟨first, rest, hqueue, hclean, hsyncs, hcount⟩ := h.queue
  cases hstep with
  | same => exact h
  | exec hq hexec =>
    rename_i w tasks file n
    refine ⟨h.accum, h.waiting, ?_⟩
    cases first with
    | nil =>
      obtain rfl : rest = w :: tasks := hqueue.symm.trans hq
      exact ⟨[], tasks, rfl, clean_of_fsync (hsyncs w List.mem_cons_self) hexec,
        fun v hv => hsyncs v (List.mem_cons_of_mem _ hv), Or.inl rfl⟩
    | cons v first =>
      obtain ⟨rfl, rfl⟩ := List.cons.inj (hqueue.symm.trans hq)
      exact ⟨first, rest, rfl, cleanAfter_exec hclean hexec, hsyncs,
        Or.inr (hcount.resolve_left nofun)⟩
  | flush hnone hsome => exact absurd h.accum hsome
  | fsync hnone w hcmd => exact ⟨h.accum, onlySyncs_toList hcmd, h.queue⟩
  | count hsome =>
    rename_i w
    refine ⟨h.accum, nofun, first, rest ++ [w], ?_, hclean,
      onlySyncs_snoc hsyncs (waiting_cmd h.waiting hsome), ?_⟩
    · rw [hqueue, List.append_assoc]
    · refine hcount.imp_right fun hle => ?_
      show b.totreq + 1 ≤ _
      rw [List.length_append, List.length_singleton]
      omega

theorem endsCleanAt_totreq (h : EndsClean b) : EndsCleanAt b b.totreq :=
  ⟨h.accum, h.waiting, b.queue, [], (List.append_nil _).symm, h.queue, nofun,
    Or.inr (Nat.le_refl _)⟩

/-- The first `totreq` tasks are done. -/
theorem settled_of_meet {totreq : Nat} (h : EndsCleanAt b totreq)
    (hmeet : totreq + b.queue.length ≤ b.totreq) : Settled b := by
  obtain ⟨first, rest, hqueue, hclean, hsyncs, hcount⟩ := h.queue
  have hnil : first = [] := by
    refine hcount.elim id fun hle => List.eq_nil_of_length_eq_zero ?_
    rw [hqueue, List.length_append] at hmeet
    omega
  subst hnil
  exact ⟨h.accum, h.waiting, hqueue ▸ hsyncs, hclean⟩

/-- Behind a clean end only `fsync` tasks follow. -/
theorem cleanAfter_append {f : EfFile} {first rest : List WriteTask} (h : CleanAfter f first)
    (hsyncs : OnlySyncs rest) : CleanAfter f (first ++ rest) := by
  unfold CleanAfter at h ⊢
  rw [List.getLast?_append]
  cases hrest : rest.getLast? with
  | none => exact h
  | some w => exact hsyncs w (List.mem_of_getLast? hrest)

theorem endsClean_of_at {totreq : Nat} (h : EndsCleanAt b totreq) : EndsClean b := by
  obtain ⟨first, rest, hqueue, hclean, hsyncs, -⟩ := h.queue
  exact ⟨h.accum, h.waiting, hqueue ▸ cleanAfter_append hclean hsyncs⟩

theorem endsClean_of_settled (h : Settled b) : EndsClean b :=
  have hclean : CleanAfter b.file ([] ++ b.queue) := cleanAfter_append h.clean h.queue
  ⟨h.accum, h.waiting, hclean⟩

/-! ### The counters and the queue -/

/-- The queue is no longer than what the counters leave. -/
theorem backlog_le {c : WriteFlow} {id : Nat} {inp : WriteOper} (hf : Flowing c id inp)
    (hfits : Fits c) (hinp : c.inp = some (id, inp)) (file : EfFile) :
    inp.writeCmplCount + (c.backlog file).queue.length ≤ inp.writeTotreqCount := by
  have hreq := hf.req
  have htot := hf.totreq
  have hle := hfits id inp hinp
  have hcounted : (countedTask c.push).length = pushCounted c.push := by
    cases c.push with
    | none => rfl
    | some p => cases p <;> rfl
  simp only [WriteFlow.backlog, List.length_append, List.length_drop, hcounted]
  omega

end Efio.Proofs.Spec
