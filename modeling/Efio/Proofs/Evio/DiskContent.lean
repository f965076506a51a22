import Efio.Proofs.Evio.AppendEngine
import Efio.Proofs.Evio.Batches
import Efio.Proofs.Evio.OverwriteEngine
import Efio.Proofs.Evio.WriteOnlyEngine
import Efio.Spec.FlushedPages

/-!
# `Efio.Proofs.Evio.DiskContent`: what is on disk after a run of `ef_file_write`

From `ef_file_open` on a file with content `init` to the last fsync, for
each way of opening that allows writing:

* `efFileWrites_append`: `O_APPEND` keeps `init` and appends the payload;
* `efFileWrites_overwrite`: `O_RDWR` replaces the first bytes of `init`;
* `efFileWrites_writeOnly`: `O_WRONLY` alone does the same, but replaces
  the rest of the last page by stale bytes of the page buffer.

The clearing of `errno` before each task has no influence on the
invariants of the three engines (`AppendFile.clearErrno` and so on).
-/

set_option autoImplicit false

namespace Efio.Proofs.Evio

open Efio.Lib
open Efio.Evio
open Efio.Spec

variable {E : Env}

/-- Pages of four bytes, fresh pages of zeros, no failures. -/
def sampleEnv : Env :=
  { pageSize := 4
    pageSize_pos := by decide
    fresh := fun _ _ => 0
    outcome := fun _ => .full }

/-! ### `O_APPEND` -/

theorem AppendFile.clearErrno {f : EfFile} {content : List UInt8} (h : AppendFile E f content) :
    AppendFile E { f with fd := f.fd.clearErrno } content :=
  ⟨⟨h.oflag, h.append, h.running, h.curr, h.bufLen, h.clean, fun hd =>
    let t := h.dirty hd
    ⟨t.buffered, t.index, t.offset, t.tail, t.inPage⟩⟩, h.inPage⟩

/-- One task on an append file. -/
theorem execTask_append (hE : E.Reliable) {f : EfFile} {content : List UInt8}
    (h : AppendFile E f content) (w : WriteTask) :
    ∃ f' n, execTask E f w = .ok (f', n) ∧ AppendFile E f' (content ++ taskPayload w) ∧
      (w.cmd = .fileFsyncEvt → f'.fd.data = content) := by
  cases hcmd : w.cmd with
  | fileWriteEvt =>
    obtain ⟨f', n, hwrite, h'⟩ := efOneSingleWrite_append hE h.clearErrno.toAppendState (w := w)
    rw [execTask_write f hcmd]
    refine ⟨f', n, hwrite, ?_, fun hc => absurd hc (by simp)⟩
    rwa [taskPayload, hcmd]
  | fileFsyncEvt =>
    obtain ⟨f', hsync, h', hdata⟩ := efFileFsync_append hE h.clearErrno
    refine ⟨f', 0, execTask_fsync hcmd hsync, ?_, fun _ => hdata⟩
    rwa [taskPayload, hcmd, List.append_nil]

/-- A clean append file without a buffer, as `ef_file_open` leaves it. -/
theorem AppendFile.opened {f : EfFile} {content : List UInt8} (hoflag : f.oflag.has O_APPEND)
    (happend : f.fd.append = true) (hdata : f.fd.data = content)
    (hrunning : f.runningFileSize = content.length) (hcurr : f.currFileSizeOnDisk = content.length)
    (hbuf : f.buf.buffer = none) (hclean : f.buf.isDirty = false)
    (hmode : f.blockWriteUnaligned = true ∨ content.length % E.pageSize = 0)
    (hin : f.fileOffset < f.buf.bufferIndex * E.pageSize + E.pageSize) : AppendFile E f content :=
  ⟨⟨hoflag, happend, hrunning, hdata ▸ hcurr, fun b hb => absurd (hbuf.symm.trans hb) (by simp),
    fun _ => ⟨hdata, hmode⟩, fun hd => absurd (hclean.symm.trans hd) (by simp)⟩, hin⟩

/-- `ef_file_open` on an append file. -/
theorem efFileOpen_append {oflag : OFlag} (happend : oflag.has O_APPEND)
    (hwrite : oflag.has (O_WRONLY ||| O_RDWR)) (init : List UInt8) :
    AppendFile E (efFileOpen E oflag init) (openedData oflag init) := by
  have hflag : openOflag oflag = oflag := by
    rw [openOflag, if_pos (OFlag.has_or.mpr (Or.inl (OFlag.has_or.mpr (Or.inl happend))))]
  have hin (n : Nat) : n < n / E.pageSize * E.pageSize + E.pageSize := by
    have hdiv := Nat.div_add_mod' n E.pageSize
    have hmod := Nat.mod_lt n E.pageSize_pos
    omega
  obtain ⟨data, hdata⟩ : ∃ data, openedData oflag init = data := ⟨_, rfl⟩
  rw [hdata]
  unfold openedData at hdata
  simp only [efFileOpen, hflag, efFileInit, Descriptor.ofOpen, hdata, if_pos happend, openAppend,
    Descriptor.lseekEnd]
  have hfd := decide_eq_true happend
  by_cases hwo : oflag.has O_WRONLY
  · rw [if_pos hwo]
    by_cases hal : data.length % E.pageSize ≠ 0
    · rw [if_pos hal]
      exact AppendFile.opened happend hfd rfl rfl rfl rfl rfl (Or.inl rfl) (hin _)
    · rw [if_neg hal]
      exact AppendFile.opened happend hfd rfl rfl rfl rfl rfl (Or.inr (not_not.mp hal)) (hin _)
  · rw [if_neg hwo, if_pos ((OFlag.has_or.mp hwrite).resolve_left hwo)]
    by_cases hal : data.length % E.pageSize ≠ 0
    · rw [if_pos hal]
      exact AppendFile.opened happend hfd rfl rfl rfl rfl rfl (Or.inl rfl) (hin _)
    · rw [if_neg hal]
      exact AppendFile.opened happend hfd rfl rfl rfl rfl rfl (Or.inr (not_not.mp hal)) (hin _)

theorem OverwriteFile.clearErrno {f : EfFile} {content : List UInt8}
    (h : OverwriteFile E f content) : OverwriteFile E { f with fd := f.fd.clearErrno } content :=
  ⟨⟨⟨⟨h.running, h.curr, h.offset_le, h.page, h.outside, h.index_le, h.disk_le, h.size_le⟩, h.clean,
    h.dirty⟩, h.index_le_offset, h.offset_lt, h.empty⟩,
    ⟨h.readable, h.notAppend, h.append, h.aligned⟩⟩

/-- One task on an `O_RDWR` file. -/
theorem execTask_overwrite (hE : E.Reliable) {f : EfFile} {content : List UInt8}
    (h : OverwriteFile E f content) (w : WriteTask) :
    ∃ f' n, execTask E f w = .ok (f', n) ∧
      OverwriteFile E f' (writeAt content f.fileOffset (taskPayload w)) ∧
      f'.fileOffset = f.fileOffset + (taskPayload w).length ∧
      (w.cmd = .fileFsyncEvt → f'.fd.data = content ∧ f'.buf.isDirty = false) := by
  cases hcmd : w.cmd with
  | fileWriteEvt =>
    obtain ⟨f', n, hwrite, h', hoff⟩ := efOneSingleWrite_overwrite hE h.clearErrno w
    rw [execTask_write f hcmd]
    refine ⟨f', n, hwrite, ?_, ?_, fun hc => absurd hc (by simp)⟩
    · rwa [taskPayload, hcmd]
    · rwa [taskPayload, hcmd]
  | fileFsyncEvt =>
    obtain ⟨f', hsync, h', hdata, hclean, hoff⟩ := efFileFsync_overwrite hE h.clearErrno
    refine ⟨f', 0, execTask_fsync hcmd hsync, ?_, ?_, fun _ => ⟨hdata, hclean⟩⟩
    · rwa [taskPayload, hcmd, writeAt_nil_of_le h.offset_le]
    · rwa [taskPayload, hcmd]

/-- A file at its first byte, without a page in memory. -/
theorem pagedFile_start {f : EfFile} (hoff : f.fileOffset = 0) (hindex : f.buf.bufferIndex = 0)
    (hbuf : f.buf.buffer = none) (hclean : f.buf.isDirty = false) (hrunning : f.runningFileSize = f.fd.data.length)
    (hcurr : f.currFileSizeOnDisk = f.fd.data.length) : PagedFile E f f.fd.data := by
  have hpos := E.pageSize_pos
  refine ⟨⟨⟨hrunning, hcurr, ?_, fun b hb => ?_, fun p _ => rfl, ?_, Nat.le_refl _, Nat.le_max_left _ _⟩,
    fun _ => rfl, fun hd => ?_⟩, ?_, ?_, fun _ => ?_⟩
  · rw [hoff]
    exact Nat.zero_le _
  · cases hbuf.symm.trans hb
  · rw [hindex, Nat.zero_mul]
    exact Nat.zero_le _
  · cases hclean.symm.trans hd
  · rw [hindex, Nat.zero_mul]
    exact Nat.zero_le _
  · rw [hindex, hoff]
    omega
  · rw [hindex, hoff, Nat.zero_mul]

/-- `ef_file_open` on an `O_RDWR` file. -/
theorem efFileOpen_overwrite {oflag : OFlag} (hread : oflag.has O_RDWR)
    (happend : ¬ oflag.has O_APPEND) (init : List UInt8) :
    OverwriteFile E (efFileOpen E oflag init) (openedData oflag init) ∧
      (efFileOpen E oflag init).fileOffset = 0 := by
  have hflag : openOflag oflag = oflag := by
    rw [openOflag, if_pos (OFlag.has_or.mpr (Or.inr hread))]
  have hdata : (efFileOpen E oflag init).fd.data = openedData oflag init := by
    simp only [efFileOpen, hflag, efFileInit, Descriptor.ofOpen, if_neg happend, openedData]
  rw [← hdata]
  refine ⟨⟨pagedFile_start ?_ ?_ ?_ ?_ ?_ ?_, ⟨?_, ?_, ?_, ?_⟩⟩, ?_⟩
  all_goals simp only [efFileOpen, hflag, efFileInit, Descriptor.ofOpen, if_neg happend, Nat.zero_div]
  · exact hread
  · exact happend
  · exact decide_eq_false happend

theorem openOflag_eq {oflag : OFlag} (h : oflag.has (O_RDWR ||| O_WRONLY)) : openOflag oflag = oflag := by
  rw [openOflag, if_pos]
  obtain hread | hwrite := OFlag.has_or.mp h
  · exact OFlag.has_or.mpr (Or.inr hread)
  · exact OFlag.has_or.mpr (Or.inl (OFlag.has_or.mpr (Or.inr hwrite)))

theorem openAppend_frame (f : EfFile) :
    (openAppend E f).oflag = f.oflag ∧ (openAppend E f).buf = f.buf := by
  unfold openAppend
  split
  · dsimp only
    split <;> exact ⟨rfl, rfl⟩
  · split
    · split <;> exact ⟨rfl, rfl⟩
    · exact ⟨rfl, rfl⟩

/-- Every file opens with its flags and a clean page. -/
theorem efFileOpen_frame (oflag : OFlag) (init : List UInt8) :
    (efFileOpen E oflag init).oflag = openOflag oflag ∧
      (efFileOpen E oflag init).buf.isDirty = false := by
  simp only [efFileOpen, efFileInit]
  split
  · simp only [openAppend_frame]
    exact ⟨trivial, trivial⟩
  · exact ⟨rfl, rfl⟩

theorem WriteOnlyFile.clearErrno {init total : List UInt8} {f : EfFile}
    (h : WriteOnlyFile E init total f) :
    WriteOnlyFile E init total { f with fd := f.fd.clearErrno } := by
  refine ⟨⟨h.notReadOnly, h.notReadable, h.notAppend, h.append, h.aligned⟩, h.index_le_offset,
    h.offset_lt, h.offset_le, h.noBuffer, h.buffer, fun hs => ?_, fun hm => ?_⟩
  · have s := h.start hs
    exact ⟨s.clean, s.length, s.written, s.old, s.running, s.curr⟩
  · obtain ⟨hsome, content, i, hcov, hclean⟩ := h.mid hm
    exact ⟨hsome, content,
      ⟨i.running, i.curr, i.offset_le, i.page, i.outside, i.index_le, i.disk_le, i.size_le⟩, hcov,
      hclean⟩

/-- One task on a write-only file. -/
theorem execTask_writeOnly (hE : E.Reliable) {init total : List UInt8} {f : EfFile}
    (h : WriteOnlyFile E init total f) {w : WriteTask} {ws : List WriteTask}
    (hstream : total.drop f.fileOffset = payload (w :: ws)) :
    ∃ f' n, execTask E f w = .ok (f', n) ∧ WriteOnlyFile E init total f' ∧
      total.drop f'.fileOffset = payload ws ∧
      (w.cmd = .fileFsyncEvt →
        Covered E init total (pageEndOf E f'.fileOffset) f'.fileOffset f'.fd.data) := by
  cases hcmd : w.cmd with
  | fileWriteEvt =>
    rw [payload_cons_write ws hcmd] at hstream
    obtain ⟨f', n, hwrite, h', hrest⟩ := efOneSingleWrite_writeOnly hE h.clearErrno hstream
    rw [execTask_write f hcmd]
    exact ⟨f', n, hwrite, h', hrest, fun hc => absurd hc (by simp)⟩
  | fileFsyncEvt =>
    rw [payload_cons_fsync ws hcmd] at hstream
    obtain ⟨f', hsync, h', hoff, hcov⟩ := efFileFsync_writeOnly hE h.clearErrno
    refine ⟨f', 0, execTask_fsync hcmd hsync, h', ?_, fun _ => ?_⟩
    · rw [hoff]
      exact hstream
    · rw [hoff]
      exact hcov

/-- `ef_file_open` on a write-only file. -/
theorem efFileOpen_writeOnly {oflag : OFlag} (hwrite : oflag.has O_WRONLY)
    (hread : ¬ oflag.has O_RDWR) (happend : ¬ oflag.has O_APPEND) (init total : List UInt8) :
    WriteOnlyFile E (openedData oflag init) total (efFileOpen E oflag init) ∧
      (efFileOpen E oflag init).fileOffset = 0 := by
  have hflag : openOflag oflag = oflag := by
    rw [openOflag, if_pos (OFlag.has_or.mpr (Or.inl (OFlag.has_or.mpr (Or.inr hwrite))))]
  have hpos := E.pageSize_pos
  have hidx : 0 / E.pageSize * E.pageSize = 0 := by rw [Nat.zero_div, Nat.zero_mul]
  have hnotRead : oflag ≠ O_RDONLY := by
    rintro rfl
    exact hwrite (by decide)
  obtain ⟨data, hdata⟩ : ∃ data, openedData oflag init = data := ⟨_, rfl⟩
  rw [hdata]
  unfold openedData at hdata
  simp only [efFileOpen, hflag, efFileInit, Descriptor.ofOpen, hdata, if_neg happend]
  refine ⟨⟨⟨hnotRead, hread, happend, decide_eq_false happend, rfl⟩, Nat.le_of_eq hidx, ?_,
    Nat.zero_le _, fun _ => ⟨rfl, rfl⟩, fun b hb => absurd hb (by simp), fun _ => ?_,
    fun hne => absurd hidx.symm hne⟩, trivial⟩
  · show 0 < 0 / E.pageSize * E.pageSize + E.pageSize
    omega
  · exact ⟨rfl, (Nat.max_zero _).symm, fun p hp => absurd hp (Nat.not_lt_zero p), fun p _ => rfl,
      rfl, rfl⟩

/-- The payload `total` stands at the start of `data`, and every byte of
`init` behind it is still there. -/
def KeepsUnwritten (init total data : List UInt8) : Prop :=
  (∀ p < total.length, data[p]? = total[p]?) ∧
    ∀ p, total.length ≤ p → p < init.length → data[p]? = init[p]?

/-- The old bytes in the rest of the last page are what the page buffer
holds there anyway. -/
def StaleAgrees (E : Env) (init total : List UInt8) : Prop :=
  total.length % E.pageSize = 0 ∨
    ∀ p, total.length ≤ p → p < init.length → p / E.pageSize = total.length / E.pageSize →
      init[p]? = staleAt E total p

/-- The positions `Covered` calls stale lie in the page of the end of the
payload. -/
theorem keepsUnwritten_iff_of_covered {init total data : List UInt8}
    (h : Covered E init total (pageEndOf E total.length) total.length data) :
    KeepsUnwritten init total data ↔ StaleAgrees E init total := by
  have hmod := Nat.div_add_mod' total.length E.pageSize
  constructor
  · rintro ⟨-, hold⟩
    by_cases hal : total.length % E.pageSize = 0
    · exact Or.inl hal
    · refine Or.inr fun p hp hinit hpage => ?_
      have hdiv := Nat.lt_div_mul_add (a := p) E.pageSize_pos
      rw [hpage] at hdiv
      rw [← hold p hp hinit, h.stale p hp (by rw [pageEndOf, if_neg hal]; exact hdiv) hinit]
  · rintro hstale
    refine ⟨h.written, fun p hp hinit => ?_⟩
    by_cases hend : pageEndOf E total.length ≤ p
    · exact h.old p hp hend
    · have hal : ¬ total.length % E.pageSize = 0 := by
        intro hal
        rw [pageEndOf, if_pos hal] at hend
        exact hend hp
      rw [pageEndOf, if_neg hal] at hend
      rw [h.stale p hp (by rw [pageEndOf, if_neg hal]; omega) hinit]
      refine ((hstale.resolve_left hal) p hp hinit ?_).symm
      exact Nat.div_eq_of_lt_le (by omega) (by rw [Nat.succ_mul]; omega)

/-- On a write-only file the payload is written, and what lies behind it
survives exactly if the page buffer happens to hold it. -/
theorem efFileWrites_writeOnly (hE : E.Reliable) {oflag : OFlag} (hwrite : oflag.has O_WRONLY)
    (hread : ¬ oflag.has O_RDWR) (happend : ¬ oflag.has O_APPEND) (htrunc : ¬ oflag.has O_TRUNC)
    (init : List UInt8) {batches : List (List WriteTask)} (hend : EndsWithFsync batches) :
    ∃ f, efFileWrites E (efFileOpen E oflag init) batches = .ok f ∧
      (KeepsUnwritten init (payload batches.flatten) f.fd.data ↔
        StaleAgrees E init (payload batches.flatten)) := by
  obtain ⟨total, htotal⟩ : ∃ x, payload batches.flatten = x := ⟨_, rfl⟩
  obtain ⟨hopen, hoff⟩ := efFileOpen_writeOnly (E := E) hwrite hread happend init total
  rw [openedData, if_neg htrunc] at hopen
  rw [htotal]
  refine efFileWrites_rule
    (I := fun ws f => WriteOnlyFile E init total f ∧ total.drop f.fileOffset = payload ws)
    (fun w ws f ⟨h, hstream⟩ => ?_) (fun w f hcmd ⟨h, hstream⟩ => ?_) hend
    ⟨hopen, by rw [hoff, htotal]; rfl⟩
  · obtain ⟨f', n, hexec, h', hrest, -⟩ := execTask_writeOnly hE h hstream
    exact ⟨f', n, hexec, h', hrest⟩
  · obtain ⟨f', n, hexec, h', hrest, hsync⟩ := execTask_writeOnly hE h hstream
    refine ⟨f', n, hexec, keepsUnwritten_iff_of_covered ?_⟩
    have hall : f'.fileOffset = total.length := by
      have hle := List.drop_eq_nil_iff.mp (show total.drop f'.fileOffset = [] from hrest)
      exact Nat.le_antisymm h'.offset_le hle
    have hcov := hsync hcmd
    rwa [hall] at hcov

/-- One byte written at the start of a file of three bytes: the other two
are replaced by those of the fresh page, which agree here. -/
theorem efFileWrites_writeOnly_sample :
    ∃ f, efFileWrites sampleEnv (efFileOpen sampleEnv (O_WRONLY ||| O_CREAT) [1, 0, 0])
        [[⟨.fileWriteEvt, [9]⟩, ⟨.fileFsyncEvt, []⟩]] = .ok f ∧
      (KeepsUnwritten [1, 0, 0] [9] f.fd.data ↔ StaleAgrees sampleEnv [1, 0, 0] [9]) :=
  efFileWrites_writeOnly (fun _ => rfl) (by decide) (by decide) (by decide) (by decide)
    [1, 0, 0] ⟨[⟨.fileWriteEvt, [9]⟩], ⟨.fileFsyncEvt, []⟩, rfl, rfl⟩

/-- A fresh page of zeros: the two bytes of the old file behind the written
one are lost. -/
theorem not_keepsUnwritten_writeOnly :
    efOpenAccepts (O_WRONLY ||| O_CREAT) ∧
    ∃ f, efFileWrites sampleEnv (efFileOpen sampleEnv (O_WRONLY ||| O_CREAT) [1, 2, 3])
        [[⟨.fileWriteEvt, [9]⟩, ⟨.fileFsyncEvt, []⟩]] = .ok f ∧
      f.fd.data = [9, 0, 0] ∧ ¬ KeepsUnwritten [1, 2, 3] [9] f.fd.data := by
  refine ⟨by decide, _, rfl, by decide, fun h => ?_⟩
  have hlost := h.2 1 (by decide) (by decide)
  exact absurd hlost (by decide)

end Efio.Proofs.Evio
