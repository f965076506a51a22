import Efio.Lib.Transition
import Efio.Proofs.Evio.Sync

/-!
# `Efio.Proofs.Evio.EngineFrame`: what the page engine leaves alone

For any outcome of the system calls, as long as the engine returns: the two
copies of a page change nothing but the buffer and the description behind
`_fd` (`syncBufFromFile_frame`, `syncBufToFile_frame`), and a task keeps
the open flags (`execTask_oflag`).

`transferStep_pass` says what one pass of the loop does to the mode of the
file and to its disk file: only a full page reaches the disk.
-/

set_option autoImplicit false

namespace Efio.Proofs.Evio

open Efio.Lib
open Efio.Evio

variable {E : Env} {f f' : EfFile}

theorem pread_sameFile (fd : Descriptor) (n off : Nat) : SameFile fd (fd.pread E n off).1 := by
  unfold Descriptor.pread
  simp only
  split <;> exact ⟨rfl, rfl⟩

/-- `sync_buf_from_file` sets the buffer, marks it clean and reads. -/
theorem syncBufFromFile_frame (h : syncBufFromFile E f = .ok f') :
    ∃ buffer fd, f' = { f with
      buf := { f.buf with buffer := buffer, isDirty := false }
      fd := fd } ∧ SameFile f.fd fd := by
  obtain ⟨b, fd, hf, hsame⟩ : ∃ b fd, (if f.buf.buffer.isNone then f.allocBuffer E else f)
      = { f with buf := { f.buf with buffer := b }, fd := fd } ∧ SameFile f.fd fd := by
    split
    · exact ⟨_, _, rfl, rfl, rfl⟩
    · exact ⟨f.buf.buffer, f.fd, rfl, rfl, rfl⟩
  unfold syncBufFromFile at h
  simp only [hf] at h
  split at h
  · split at h
    · split at h
      · simp only [EfFile.loadPage] at h
        split at h
        · cases h
        · cases h
          have hread := pread_sameFile (E := E) fd.clearErrno E.pageSize (f.buf.bufferIndex * E.pageSize)
          exact ⟨_, _, rfl, hread.data.trans hsame.data, hread.append.trans hsame.append⟩
      · cases h
    · cases h
      exact ⟨_, _, rfl, hsame⟩
  · cases h
    exact ⟨_, _, rfl, hsame⟩

/-- `sync_buf_to_file` marks the page clean and writes. -/
theorem syncBufToFile_frame (h : syncBufToFile E f = .ok f') :
    ∃ fd, f' = { f with fd := fd, buf := { f.buf with isDirty := false } } := by
  unfold syncBufToFile at h
  split at h
  · split at h <;>
    · simp only at h
      split at h
      · cases h
      · cases h
        exact ⟨_, rfl⟩
  · rename_i hclean
    cases h
    refine ⟨f.fd, ?_⟩
    rw [← Bool.eq_false_iff.mpr hclean]

/-! ### One pass of the loop -/

/-- What one pass of the loop of `ef_one_single_write` does to the mode of
the file, and to the disk file in buffered mode. -/
structure Pass (E : Env) (c c' : Cursor) (n : Nat) : Prop where
  oflag : c'.file.oflag = c.file.oflag
  direct : c'.file.blockWriteUnaligned
    = (c.file.blockWriteUnaligned && decide (c.pageOffset + n ≠ E.pageSize))
  clean : c.file.blockWriteUnaligned = true → c.file.buf.isDirty = false →
    c'.file.buf.isDirty = false
  inside : c.file.blockWriteUnaligned = false → c.pageOffset + n ≠ E.pageSize →
    c'.file.fd.data = c.file.fd.data ∧ c'.file.buf.bufferIndex = c.file.buf.bufferIndex
  turned : c.pageOffset + n = E.pageSize →
    c'.file.buf.isDirty = false ∧ c'.file.buf.bufferIndex = c.file.buf.bufferIndex + 1 ∧
      c'.pageOffset = 0

theorem map_eq_ok {α β : Type} {x : Except Fault α} {g : α → β} {y : β} (h : x.map g = .ok y) :
    ∃ a, x = .ok a ∧ g a = y := by
  cases x with
  | error e => cases h
  | ok a => exact ⟨a, rfl, Except.ok.inj h⟩

theorem unalignedTransfer_pass {w : WriteTask} {c c' : Cursor} {n : Nat}
    (hun : c.file.blockWriteUnaligned = true) (h : unalignedTransfer E w c n = .ok c') :
    Pass E c c' n := by
  simp only [unalignedTransfer] at h
  split at h
  · cases h
  · rcases hp : c.file.fd.clearErrno.pwrite E (w.buf.take n) c.file.currFileSizeOnDisk
      with ⟨fd, ret⟩
    simp only [hp] at h
    split at h
    · cases h
    · split at h
      · rename_i hend
        obtain ⟨g, hload, rfl⟩ := map_eq_ok h
        obtain ⟨buffer, fd', rfl, -⟩ := syncBufFromFile_frame hload
        change c.pageOffset + n = E.pageSize at hend
        exact ⟨rfl, by simp [Cursor.atPageStart, hend], fun _ _ => rfl,
          fun hf => absurd (hun.symm.trans hf) (by simp), fun _ => ⟨rfl, rfl, rfl⟩⟩
      · rename_i hend
        cases h
        change ¬ c.pageOffset + n = E.pageSize at hend
        exact ⟨rfl, by simp [Cursor.advance, hend], fun _ hd => hd,
          fun hf => absurd (hun.symm.trans hf) (by simp), fun hc => absurd hc hend⟩

theorem bufferedTransfer_pass {w : WriteTask} {c c' : Cursor} {n : Nat}
    (hun : c.file.blockWriteUnaligned = false) (h : bufferedTransfer E w c n = .ok c') :
    Pass E c c' n := by
  unfold bufferedTransfer at h
  split at h
  · cases h
  · simp only at h
    split at h
    · rename_i hend
      obtain ⟨g, hsync, h⟩ := bind_eq_ok.mp h
      obtain ⟨fd, rfl⟩ := syncBufToFile_frame hsync
      obtain ⟨g', hnext, rfl⟩ := map_eq_ok h
      obtain ⟨buffer, fd', rfl, -⟩ := syncBufFromFile_frame hnext
      exact ⟨rfl, by simp [Cursor.atPageStart, Cursor.advance, dirtied, hun],
        fun ht => absurd (hun.symm.trans ht) nofun, fun _ hne => absurd hend hne,
        fun _ => ⟨rfl, rfl, rfl⟩⟩
    · rename_i hend
      split at h
      · cases h
      · cases h
        exact ⟨rfl, by simp [Cursor.advance, dirtied, hun],
          fun ht => absurd (hun.symm.trans ht) nofun, fun _ _ => ⟨rfl, rfl⟩, fun hc => absurd hc hend⟩

/-- The test at the head of the loop loads a page at most. -/
theorem ensureBuffer_frame (h : ensureBuffer E f = .ok f') :
    ∃ buffer fd, f' = { f with buf := { f.buf with buffer := buffer }, fd := fd } ∧
      SameFile f.fd fd := by
  unfold ensureBuffer at h
  split at h
  · rename_i hnone
    obtain ⟨buffer, fd, rfl, hsame⟩ := syncBufFromFile_frame h
    exact ⟨buffer, fd, by rw [← hnone.2], hsame⟩
  · cases h
    exact ⟨f.buf.buffer, f.fd, rfl, rfl, rfl⟩

theorem transferStep_pass {w : WriteTask} {c c' : Cursor} (h : transferStep E w c = .ok c') :
    Pass E c c' (min c.remainingBytes (E.pageSize - c.pageOffset)) := by
  obtain ⟨f, hload, h⟩ := bind_eq_ok.mp h
  obtain ⟨buffer, fd, rfl, hsame⟩ := ensureBuffer_frame hload
  simp only at h
  split at h
  · rename_i hun
    obtain ⟨hoflag, hdirect, hclean, -, hturned⟩ :=
      unalignedTransfer_pass (by exact hun) h
    exact ⟨hoflag, hdirect, hclean, fun hf => absurd (hun.symm.trans hf) nofun, hturned⟩
  · rename_i hun
    obtain ⟨hoflag, hdirect, hclean, hinside, hturned⟩ :=
      bufferedTransfer_pass (by exact Bool.eq_false_iff.mpr hun) h
    refine ⟨hoflag, hdirect, hclean, fun hf hne => ?_, hturned⟩
    obtain ⟨hdata, hidx⟩ := hinside hf hne
    exact ⟨hdata.trans hsame.data, hidx⟩

/-! ### A task -/

theorem transferLoop_oflag {w : WriteTask} (fuel : Nat) {c c' : Cursor}
    (h : transferLoop E w fuel c = .ok c') : c'.file.oflag = c.file.oflag :=
  transferLoop_keeps (I := fun c' => c'.file.oflag = c.file.oflag)
    (fun _ _ hflag _ hpass => (transferStep_pass hpass).oflag.trans hflag) fuel rfl h

/-- The start position touches the offset and the page buffer only. -/
theorem appendPosition_frame (h : appendPosition E f = .ok f') :
    ∃ offset index buffer, f' = { f with
      fileOffset := offset
      buf := { f.buf with bufferIndex := index, buffer := buffer } } := by
  unfold appendPosition at h
  split at h
  · cases h
    exact ⟨_, _, _, rfl⟩
  · split at h
    · cases h
      exact ⟨_, _, _, rfl⟩
    · split at h <;> cases h
      exact ⟨_, _, _, rfl⟩

/-- A task keeps the open flags. -/
theorem execTask_oflag {w : WriteTask} {n : Nat} (h : execTask E f w = .ok (f', n)) :
    f'.oflag = f.oflag := by
  unfold execTask at h
  simp only at h
  split at h
  · obtain ⟨f₁, hpos, h⟩ := bind_eq_ok.mp h
    obtain ⟨c, hloop, h⟩ := bind_eq_ok.mp h
    cases h
    obtain ⟨offset, index, buffer, rfl⟩ := appendPosition_frame hpos
    exact transferLoop_oflag _ hloop
  · obtain ⟨f₁, hsync, h⟩ := bind_eq_ok.mp h
    cases h
    obtain ⟨f₂, hbuf, h⟩ := bind_eq_ok.mp hsync
    obtain ⟨fd, rfl⟩ := syncBufToFile_frame hbuf
    simp only at h
    split at h
    · cases h
      rfl
    · split at h <;> cases h <;> rfl

end Efio.Proofs.Evio
