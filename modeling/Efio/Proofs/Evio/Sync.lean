import Efio.Lib.Transition
import Efio.Evio.PageEngine

/-!
# `Efio.Proofs.Evio.Sync`: one page between buffer and disk

Under `Env.Reliable` each system call has one result
(`pwrite_of_reliable`, `pread_of_reliable`, `ftruncate_of_reliable`), and
the two copies of the page engine become equations:

* `syncBufFromFile_eq`: the buffer holds `enteredPage`, nothing else of
  the record changes;
* `syncBufToFile_eq`: a dirty page is written whole, and the file is cut
  or filled to `_running_file_size`.

The engine proofs read nothing of a `Descriptor` but its bytes and its
`O_APPEND` flag; `Descriptor.SameFile` says that both are kept.
-/

set_option autoImplicit false

namespace Efio.Proofs.Evio

open Efio.Lib
open Efio.Evio

variable {E : Env}

/-- The two descriptions agree on the bytes and on `O_APPEND`. -/
structure SameFile (fd fd' : Descriptor) : Prop where
  data : fd'.data = fd.data
  append : fd'.append = fd.append

theorem pwrite_of_reliable (hE : E.Reliable) (fd : Descriptor) (buf : List UInt8) (off : Nat) :
    ∃ fd', fd.clearErrno.pwrite E buf off = (fd', (buf.length : Int)) ∧
      fd'.data = fd.store buf off ∧ fd'.append = fd.append := by
  refine ⟨{ fd.clearErrno with calls := fd.calls + 1, data := fd.store buf off }, ?_, rfl, rfl⟩
  have hcall : E.outcome fd.clearErrno.calls = .full := hE _
  simp only [Descriptor.pwrite, hcall, Outcome.moved, List.take_length]
  rfl

/-- A `pread` that moves everything there is. -/
theorem pread_of_full (fd : Descriptor) (n off : Nat)
    (hfull : (E.outcome fd.calls).moved ((fd.data.drop off).take n).length
      = some ((fd.data.drop off).take n).length) :
    fd.pread E n off
      = ({ fd with calls := fd.calls + 1 }, (((fd.data.drop off).take n).length : Int),
          (fd.data.drop off).take n) := by
  simp only [Descriptor.pread, hfull, List.take_length]

theorem moved_of_reliable (hE : E.Reliable) (k n : Nat) : (E.outcome k).moved n = some n := by
  rw [hE k]
  rfl

theorem pread_of_reliable (hE : E.Reliable) (fd : Descriptor) (n off : Nat) :
    fd.pread E n off
      = ({ fd with calls := fd.calls + 1 }, (((fd.data.drop off).take n).length : Int),
          (fd.data.drop off).take n) :=
  pread_of_full fd n off (moved_of_reliable hE _ _)

theorem ftruncate_of_reliable (hE : E.Reliable) (fd : Descriptor) (n : Nat) :
    fd.ftruncate E n
      = ({ fd with calls := fd.calls + 1, data := resize fd.data n }, 0) := by
  simp only [Descriptor.ftruncate, hE fd.calls]

@[simp] theorem length_freshPage (k : Nat) : (E.freshPage k).length = E.pageSize := by
  simp [Env.freshPage]

/-- The page memory `sync_buf_from_file` leaves: the old one or a fresh
one, with the disk page laid over it when there is one and the flags let
the code read it. -/
def enteredPage (E : Env) (f : EfFile) : List UInt8 :=
  let b := f.buf.buffer.getD (E.freshPage f.fd.pages)
  if f.buf.bufferIndex * E.pageSize < f.currFileSizeOnDisk ∧
      (f.oflag = O_RDONLY ∨ f.oflag.has O_RDWR) then
    writeAt b 0 ((f.fd.data.drop (f.buf.bufferIndex * E.pageSize)).take E.pageSize)
  else b

/-- `sync_buf_from_file` sets the buffer to `enteredPage`, marks it clean
and keeps the rest. -/
theorem syncBufFromFile_eq (hE : E.Reliable) (f : EfFile) :
    ∃ fd, syncBufFromFile E f = .ok { f with
        buf := { f.buf with buffer := some (enteredPage E f), isDirty := false }
        fd := fd } ∧ SameFile f.fd fd := by
  obtain ⟨b, hb⟩ : ∃ b, f.buf.buffer.getD (E.freshPage f.fd.pages) = b := ⟨_, rfl⟩
  -- The record after the allocation test, whichever way it went.
  obtain ⟨fd₀, hf₀, hsame⟩ : ∃ fd₀,
      (if f.buf.buffer.isNone then f.allocBuffer E else f)
        = { f with buf := { f.buf with buffer := some b }, fd := fd₀ } ∧ SameFile f.fd fd₀ := by
    cases hbuf : f.buf.buffer with
    | none =>
      rw [hbuf, Option.getD_none] at hb
      exact ⟨{ f.fd with pages := f.fd.pages + 1 }, by simp [EfFile.allocBuffer, hb], rfl, rfl⟩
    | some b' =>
      obtain rfl : b' = b := by rwa [hbuf] at hb
      exact ⟨f.fd, by rw [if_neg (by simp), ← hbuf], rfl, rfl⟩
  unfold syncBufFromFile
  simp only [hf₀]
  by_cases hpage : f.buf.bufferIndex * E.pageSize < f.currFileSizeOnDisk
  · by_cases hread : f.oflag = O_RDONLY ∨ f.oflag.has O_RDWR
    · refine ⟨{ fd₀.clearErrno with calls := fd₀.calls + 1 }, ?_, hsame.data, hsame.append⟩
      have hentered : enteredPage E f
          = writeAt b 0 ((f.fd.data.drop (f.buf.bufferIndex * E.pageSize)).take E.pageSize) := by
        simp [enteredPage, hpage, hread, hb]
      have hneg (n : Nat) : ((n : Int) = -1) = False := by
        simp only [eq_iff_iff, iff_false]
        omega
      simp only [hpage, hread, if_true, EfFile.loadPage, pread_of_reliable hE, hneg, if_false,
        hentered, Descriptor.clearErrno, hsame.data]
    · refine ⟨fd₀, ?_, hsame⟩
      have hentered : enteredPage E f = b := by simp [enteredPage, hread, hb]
      simp only [hpage, hread, if_true, if_false, hentered]
  · refine ⟨fd₀, ?_, hsame⟩
    have hentered : enteredPage E f = b := by simp [enteredPage, hpage, hb]
    simp only [hpage, if_false, hentered]

/-- The page memory has the page size after `sync_buf_from_file` if it
had before. -/
theorem length_enteredPage (f : EfFile) (hlen : ∀ b ∈ f.buf.buffer, b.length = E.pageSize) :
    (enteredPage E f).length = E.pageSize := by
  have hb : (f.buf.buffer.getD (E.freshPage f.fd.pages)).length = E.pageSize := by
    cases hbuf : f.buf.buffer with
    | none => simp
    | some b => exact hlen b hbuf
  unfold enteredPage
  split
  · rw [length_writeAt, hb, List.length_take]
    omega
  · exact hb

theorem syncBufToFile_of_clean (f : EfFile) (h : f.buf.isDirty = false) :
    syncBufToFile E f = .ok f := by
  simp [syncBufToFile, h]

/-- `sync_buf_to_file` on a dirty page: the whole page is stored at its
place, and the file is set to the running size. -/
theorem syncBufToFile_eq (hE : E.Reliable) (f : EfFile) (b : List UInt8)
    (hdirty : f.buf.isDirty = true) (hb : f.buf.buffer = some b) :
    ∃ fd, syncBufToFile E f = .ok { f with fd := fd, buf := { f.buf with isDirty := false } } ∧
      fd.data = resize (f.fd.store b (f.buf.bufferIndex * E.pageSize)) f.runningFileSize ∧
      fd.append = f.fd.append := by
  obtain ⟨fd, hwrite, hdata, happend⟩ :=
    pwrite_of_reliable hE f.fd b (f.buf.bufferIndex * E.pageSize)
  refine ⟨{ fd with calls := fd.calls + 1, data := resize fd.data f.runningFileSize }, ?_, ?_,
    happend⟩
  · simp only [syncBufToFile, hdirty, if_true, hb, hwrite, ftruncate_of_reliable hE, ne_eq,
      not_true_eq_false, if_false]
  · rw [← hdata]

/-- The bytes after a store on a descriptor with `O_APPEND`. -/
theorem store_of_append {fd : Descriptor} (h : fd.append = true) (bs : List UInt8) (off : Nat) :
    fd.store bs off = fd.data ++ bs := by
  unfold Descriptor.store
  split
  · rename_i hbs
    rw [hbs, List.append_nil]
  · rfl

/-- The bytes after a store on a descriptor without `O_APPEND`. -/
theorem store_of_not_append {fd : Descriptor} (h : fd.append = false) (bs : List UInt8)
    {off : Nat} (hoff : off ≤ fd.data.length) : fd.store bs off = writeAt fd.data off bs := by
  unfold Descriptor.store
  split
  · rename_i hbs
    rw [hbs, writeAt_nil_of_le hoff]
  · simp [h]

/-- The running size after `n` bytes that stay in the page of the offset:
the end of the written bytes, if that is more. -/
theorem grownSize_eq (f : EfFile) {n : Nat} (hle : f.fileOffset ≤ f.runningFileSize)
    (hpage : f.fileOffset % E.pageSize + n ≤ E.pageSize) :
    grownSize E f n = max f.runningFileSize (f.fileOffset + n) := by
  unfold grownSize
  split
  · split <;> omega
  · rename_i hne
    have hlt : f.fileOffset / E.pageSize < f.runningFileSize / E.pageSize :=
      Nat.lt_of_le_of_ne (Nat.div_le_div_right hle) hne
    have hmul : (f.fileOffset / E.pageSize + 1) * E.pageSize
        ≤ f.runningFileSize / E.pageSize * E.pageSize := Nat.mul_le_mul_right _ hlt
    have hdiv := Nat.div_add_mod' f.fileOffset E.pageSize
    have hle' := Nat.div_mul_le_self f.runningFileSize E.pageSize
    rw [Nat.add_mul] at hmul
    omega

/-! ### The loop of `ef_one_single_write` -/

/-- The locals of the loop after `n` more bytes. -/
def Moved (c c' : Cursor) (n : Nat) : Prop :=
  c'.wbPos = c.wbPos + n ∧ c'.remainingBytes = c.remainingBytes - n ∧
    c'.bytesTransfered = c.bytesTransfered + n

/-- The bytes one pass moves: the rest of the task, up to the page end. -/
def chunk (E : Env) (w : WriteTask) (c : Cursor) : List UInt8 :=
  (w.buf.drop c.wbPos).take (min c.remainingBytes (E.pageSize - c.pageOffset))

theorem length_chunk (w : WriteTask) (c : Cursor) (h : c.wbPos + c.remainingBytes = w.nbyte) :
    (chunk E w c).length = min c.remainingBytes (E.pageSize - c.pageOffset) := by
  unfold WriteTask.nbyte at h
  simp only [chunk, List.length_take, List.length_drop]
  omega

/-- The bytes of one pass and the rest of the task after it. -/
theorem chunk_append_drop {w : WriteTask} {c c' : Cursor}
    (h : Moved c c' (min c.remainingBytes (E.pageSize - c.pageOffset))) :
    chunk E w c ++ w.buf.drop c'.wbPos = w.buf.drop c.wbPos := by
  rw [h.1, chunk, ← List.drop_drop, List.take_append_drop]

/-- When the task is used up, nothing of it is left. -/
theorem drop_wbPos_eq_nil {w : WriteTask} {c : Cursor}
    (h : c.wbPos + c.remainingBytes = w.nbyte) (h0 : c.remainingBytes = 0) :
    w.buf.drop c.wbPos = [] := by
  unfold WriteTask.nbyte at h
  exact List.drop_eq_nil_of_le (by omega)

theorem moved_atPageStart {c : Cursor} {file : EfFile} {n : Nat} {r : Except Fault EfFile}
    {c' : Cursor} (h : r.map (c.advance file n).atPageStart = .ok c') : Moved c c' n := by
  cases r with
  | error e => simp [Except.map] at h
  | ok f =>
    cases h
    exact ⟨rfl, rfl, rfl⟩

theorem unalignedTransfer_moved {w : WriteTask} {c c' : Cursor} {n : Nat}
    (h : unalignedTransfer E w c n = .ok c') : Moved c c' n := by
  simp only [unalignedTransfer] at h
  split at h
  · cases h
  · rcases hp : c.file.fd.clearErrno.pwrite E (w.buf.take n) c.file.currFileSizeOnDisk
      with ⟨fd, ret⟩
    simp only [hp] at h
    split at h
    · cases h
    · split at h
      · exact moved_atPageStart h
      · cases h
        exact ⟨rfl, rfl, rfl⟩

theorem bufferedTransfer_moved {w : WriteTask} {c c' : Cursor} {n : Nat}
    (h : bufferedTransfer E w c n = .ok c') : Moved c c' n := by
  unfold bufferedTransfer at h
  split at h
  · cases h
  · rename_i b hb
    simp only at h
    split at h
    · cases hsync : syncBufToFile E (c.advance (dirtied E c.file
        (writeAt b c.pageOffset ((w.buf.drop c.wbPos).take n)) n) n).file with
      | error e =>
        rw [hsync] at h
        cases h
      | ok f =>
        rw [hsync] at h
        exact moved_atPageStart h
    · split at h
      · cases h
      · cases h
        exact ⟨rfl, rfl, rfl⟩

/-- A pass of the loop that returns moves the rest of the task, up to the
page end. -/
theorem transferStep_moved {w : WriteTask} {c c' : Cursor} (h : transferStep E w c = .ok c') :
    Moved c c' (min c.remainingBytes (E.pageSize - c.pageOffset)) := by
  unfold transferStep at h
  cases hload : ensureBuffer E c.file with
  | error e =>
    rw [hload] at h
    cases h
  | ok f =>
    rw [hload] at h
    change (if f.blockWriteUnaligned then _ else _) = Except.ok c' at h
    split at h
    · have hmoved := unalignedTransfer_moved h
      exact hmoved
    · have hmoved := bufferedTransfer_moved h
      exact hmoved

/-- The induction rule of the loop: an invariant that fixes the locals and
that one pass keeps holds when the task is used up, and the loop gets
there. Each pass moves a byte, since the page offset is inside the page. -/
theorem transferLoop_rule {w : WriteTask} {I : Cursor → Prop}
    (hlocals : ∀ c, I c → c.pageOffset < E.pageSize)
    (hstep : ∀ c, I c → 0 < c.remainingBytes → ∃ c', transferStep E w c = .ok c' ∧ I c') :
    ∀ (fuel : Nat) (c : Cursor), I c → c.remainingBytes ≤ fuel →
      ∃ c', transferLoop E w fuel c = .ok c' ∧ I c' ∧ c'.remainingBytes = 0 := by
  intro fuel
  induction fuel with
  | zero =>
    intro c h hle
    have h0 : c.remainingBytes = 0 := by omega
    exact ⟨c, if_pos h0, h, h0⟩
  | succ fuel ih =>
    intro c h hle
    by_cases h0 : c.remainingBytes = 0
    · exact ⟨c, if_pos h0, h, h0⟩
    · obtain ⟨c₁, hpass, h₁⟩ := hstep c h (by omega)
      obtain ⟨-, hrem, -⟩ := transferStep_moved hpass
      have hin := hlocals c h
      obtain ⟨c', hloop, h', h0'⟩ := ih c₁ h₁ (by omega)
      refine ⟨c', ?_, h', h0'⟩
      rw [transferLoop, if_neg h0, hpass]
      exact hloop

/-- The same for a loop that is known to return. -/
theorem transferLoop_keeps {w : WriteTask} {I : Cursor → Prop}
    (hstep : ∀ c c', I c → 0 < c.remainingBytes → transferStep E w c = .ok c' → I c') :
    ∀ (fuel : Nat) {c c' : Cursor}, I c → transferLoop E w fuel c = .ok c' → I c' := by
  intro fuel
  induction fuel with
  | zero =>
    intro c c' h hloop
    unfold transferLoop at hloop
    split at hloop <;> cases hloop
    exact h
  | succ fuel ih =>
    intro c c' h hloop
    unfold transferLoop at hloop
    split at hloop
    · cases hloop
      exact h
    · obtain ⟨c₁, hpass, hrest⟩ := bind_eq_ok.mp hloop
      exact ih (hstep c c₁ h (by omega) hpass) hrest

/-- Where the loop starts. -/
def startCursor (E : Env) (f : EfFile) (w : WriteTask) : Cursor :=
  { file := f
    pageOffset := f.fileOffset - f.buf.bufferIndex * E.pageSize
    remainingBytes := w.nbyte
    wbPos := 0
    bytesTransfered := 0 }

theorem efOneSingleWrite_eq_ok {f f' : EfFile} {w : WriteTask} {n : Nat} :
    efOneSingleWrite E f w = .ok (f', n) ↔ ∃ f₁ c, appendPosition E f = .ok f₁ ∧
      transferLoop E w w.nbyte (startCursor E f₁ w) = .ok c ∧ c.file = f' ∧ c.bytesTransfered = n := by
  constructor
  · intro h
    obtain ⟨f₁, hpos, h⟩ := bind_eq_ok.mp h
    obtain ⟨c, hloop, h⟩ := bind_eq_ok.mp h
    cases h
    exact ⟨f₁, c, hpos, hloop, rfl, rfl⟩
  · rintro ⟨f₁, c, hpos, hloop, rfl, rfl⟩
    rw [efOneSingleWrite, hpos]
    show (transferLoop E w w.nbyte (startCursor E f₁ w)).bind _ = _
    rw [hloop]
    rfl

end Efio.Proofs.Evio
