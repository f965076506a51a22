import Efio.Proofs.Evio.PageImage

/-!
# `Efio.Proofs.Evio.OverwriteEngine`: the page engine on an `O_RDWR` file

`PageState f content` is a `PageImage` whose clean page is on disk. On a
file that is opened for reading and writing without `O_APPEND`
(`Overwrites`), each page is loaded before it is overwritten, so
`sync_buf_from_file` keeps `PageState` (`PageState.load`) and one pass of
the loop overlays its bytes at the offset (`transferStep_overwrite`).

`efOneSingleWrite_overwrite` and `efFileFsync_overwrite` are the results
per task. They also serve the file shared with a reader, which moves the
offset between tasks.
-/

set_option autoImplicit false

namespace Efio.Proofs.Evio

open Efio.Lib
open Efio.Evio

/-- `f` stands for `content`; a clean page is on disk. -/
structure PageState (E : Env) (f : EfFile) (content : List UInt8) : Prop
    extends PageImage E f content where
  clean : f.buf.isDirty = false → f.fd.data = content
  dirty : f.buf.isDirty = true → f.buf.buffer.isSome

/-- The file is read and written, without `O_APPEND`. -/
structure Overwrites (f : EfFile) : Prop where
  readable : f.oflag.has O_RDWR
  notAppend : ¬ f.oflag.has O_APPEND
  append : f.fd.append = false
  aligned : f.blockWriteUnaligned = false

/-- The offset is in the buffer's page, and at its start when no page is in
memory. -/
structure PagedFile (E : Env) (f : EfFile) (content : List UInt8) : Prop
    extends PageState E f content where
  index_le_offset : f.buf.bufferIndex * E.pageSize ≤ f.fileOffset
  offset_lt : f.fileOffset < f.buf.bufferIndex * E.pageSize + E.pageSize
  empty : f.buf.buffer = none → f.fileOffset = f.buf.bufferIndex * E.pageSize

/-- An `O_RDWR` file between two tasks. -/
structure OverwriteFile (E : Env) (f : EfFile) (content : List UInt8) : Prop
    extends PagedFile E f content, Overwrites f

/-- What the loop of `ef_one_single_write` keeps on an `O_RDWR` file. -/
structure OverwriteCursor (E : Env) (w : WriteTask) (c : Cursor) (content : List UInt8) : Prop where
  state : PageState E c.file content
  flags : Overwrites c.file
  page : c.file.buf.bufferIndex * E.pageSize + c.pageOffset = c.file.fileOffset
  inPage : c.pageOffset < E.pageSize
  empty : c.file.buf.buffer = none → c.pageOffset = 0
  wbPos : c.wbPos + c.remainingBytes = w.nbyte

variable {E : Env}

/-- What `sync_buf_from_file` loads agrees with the disk, at any page. -/
theorem PageState.load (hE : E.Reliable) {f : EfFile} {content : List UInt8}
    (hread : f.oflag.has O_RDWR) (hdata : f.fd.data = content)
    (hrunning : f.runningFileSize = content.length)
    (hcurr : f.currFileSizeOnDisk = content.length) (hoff : f.fileOffset ≤ content.length)
    (hidx : f.buf.bufferIndex * E.pageSize ≤ f.fileOffset)
    (hlen : ∀ b ∈ f.buf.buffer, b.length = E.pageSize) :
    ∃ fd, syncBufFromFile E f = .ok { f with
        buf := { f.buf with buffer := some (enteredPage E f), isDirty := false }
        fd := fd } ∧ SameFile f.fd fd ∧
      PageState E { f with
        buf := { f.buf with buffer := some (enteredPage E f), isDirty := false }
        fd := fd } content := by
  obtain ⟨fd, hload, hsame⟩ := syncBufFromFile_eq hE f
  have hfd : fd.data = content := hsame.data.trans hdata
  refine ⟨fd, hload, hsame, ⟨hrunning, ?_, hoff, ?_, ?_, ?_, ?_, ?_⟩, fun _ => hfd,
    fun hd => absurd hd (by simp)⟩
  · show f.currFileSizeOnDisk = fd.data.length
    rw [hcurr, hfd]
  · intro b hb
    obtain rfl : enteredPage E f = b := Option.some.inj hb
    refine ⟨length_enteredPage f hlen, fun i hi hlt => ?_⟩
    change f.buf.bufferIndex * E.pageSize + i < content.length at hlt
    change content[f.buf.bufferIndex * E.pageSize + i]? = _
    -- A position of the page below the file size: the page was loaded.
    have hpage : f.buf.bufferIndex * E.pageSize < f.currFileSizeOnDisk := by omega
    rw [enteredPage, if_pos ⟨hpage, Or.inr hread⟩, getElem?_writeAt_mid _ (Nat.zero_le _),
      Nat.sub_zero, List.getElem?_take_of_lt hi, List.getElem?_drop, hdata]
    rw [hdata, List.length_take, List.length_drop]
    omega
  · intro p _
    rw [show fd.data = content from hfd]
  · show f.buf.bufferIndex * E.pageSize ≤ fd.data.length
    rw [hfd]
    omega
  · exact Nat.le_of_eq (by rw [← hfd])
  · show content.length ≤ max fd.data.length _
    rw [hfd]
    exact Nat.le_max_left _ _

/-- The test at the head of the loop leaves a file with a buffer. -/
theorem ensureBuffer_overwrite (hE : E.Reliable) {w : WriteTask} {c : Cursor}
    {content : List UInt8} (h : OverwriteCursor E w c content) :
    ∃ f b, ensureBuffer E c.file = .ok f ∧ OverwriteCursor E w { c with file := f } content ∧
      f.buf.buffer = some b ∧ f.fileOffset = c.file.fileOffset := by
  unfold ensureBuffer
  by_cases hnone : c.file.buf.buffer = none ∧ c.file.buf.isDirty = false
  · rw [if_pos hnone]
    have hpg := h.page
    have hdata := h.state.clean hnone.2
    obtain ⟨fd, hload, hsame, hst⟩ := PageState.load hE h.flags.readable hdata h.state.running
      (by rw [h.state.curr, hdata]) h.state.offset_le (by omega) (fun b hb => (h.state.page b hb).1)
    exact ⟨_, _, hload,
      ⟨hst, ⟨h.flags.readable, h.flags.notAppend, hsame.append.trans h.flags.append, h.flags.aligned⟩,
        hpg, h.inPage, nofun, h.wbPos⟩, rfl, rfl⟩
  · obtain ⟨b, hb⟩ : ∃ b, c.file.buf.buffer = some b := by
      apply Option.ne_none_iff_exists'.mp
      intro hn
      cases hd : c.file.buf.isDirty with
      | false => exact hnone ⟨hn, hd⟩
      | true =>
        have := h.state.dirty hd
        simp [hn] at this
    exact ⟨c.file, b, if_neg hnone, h, hb, rfl⟩

/-- The copy into the page buffer overlays its bytes at the offset. A full
page goes to the disk, and the next one is loaded. -/
theorem bufferedTransfer_overwrite (hE : E.Reliable) {w : WriteTask} {c : Cursor}
    {content b : List UInt8} (h : OverwriteCursor E w c content)
    (hb : c.file.buf.buffer = some b) :
    ∃ c', bufferedTransfer E w c (min c.remainingBytes (E.pageSize - c.pageOffset)) = .ok c' ∧
      OverwriteCursor E w c' (writeAt content c.file.fileOffset (chunk E w c)) ∧
      c'.file.fileOffset = c.file.fileOffset + (chunk E w c).length := by
  obtain ⟨n, hn⟩ : ∃ n, min c.remainingBytes (E.pageSize - c.pageOffset) = n := ⟨_, rfl⟩
  have hin := h.inPage
  have hpg := h.page
  have hlen : (chunk E w c).length = n := (length_chunk w c h.wbPos).trans hn
  have hwb : c.wbPos + n + (c.remainingBytes - n) = w.nbyte := by
    have := h.wbPos
    omega
  obtain ⟨content', hcontent'⟩ : ∃ x, writeAt content c.file.fileOffset (chunk E w c) = x := ⟨_, rfl⟩
  obtain ⟨page, hpage⟩ : ∃ x, writeAt b c.pageOffset (chunk E w c) = x := ⟨_, rfl⟩
  obtain ⟨d, hd⟩ : ∃ d, dirtied E c.file page n = d := ⟨_, rfl⟩
  have himage : PageImage E d content' := by
    have := h.state.toPageImage.dirtied (chunk E w c) hb hpg (by omega) hin
    rwa [hpage, hlen, hd, hcontent'] at this
  have hstep : bufferedTransfer E w c n
      = if c.pageOffset + n = E.pageSize then
          ((syncBufToFile E d).bind (nextPage E)).map (c.advance d n).atPageStart
        else if c.pageOffset + n > E.pageSize then
          .error (.evAbort "Should have never reached here")
        else .ok (c.advance d n) := by
    have hchunk : (w.buf.drop c.wbPos).take n = chunk E w c := by rw [chunk, hn]
    simp only [bufferedTransfer, hb, hchunk, hpage, hd, Cursor.advance]
    cases syncBufToFile E d <;> rfl
  have hflags : Overwrites d := by
    rw [← hd]
    exact ⟨h.flags.readable, h.flags.notAppend, h.flags.append, h.flags.aligned⟩
  have hdirty : d.buf.isDirty = true := by rw [← hd]; rfl
  have hbuf : d.buf.buffer = some page := by rw [← hd]; rfl
  have hidx : d.buf.bufferIndex = c.file.buf.bufferIndex := by rw [← hd]; rfl
  have hoff : d.fileOffset = c.file.fileOffset + n := by rw [← hd]; rfl
  rw [hn, hcontent', hlen, hstep]
  by_cases hend : c.pageOffset + n = E.pageSize
  · -- The page is full.
    obtain ⟨g, hturn, hg⟩ := himage.turn hE hflags.append hdirty hbuf
      (by rw [hidx, hoff]; omega)
    have hpagelen : page.length = E.pageSize := (himage.page page hbuf).1
    have hgoff : g.fileOffset = g.buf.bufferIndex * E.pageSize := by
      rw [hg.offset, hg.index, hidx, hoff, Nat.add_mul]
      omega
    obtain ⟨fd, hload, hsame, hst⟩ := PageState.load hE (f := g)
      (by rw [hg.oflag]; exact hflags.readable) hg.data hg.running hg.curr
      (by rw [hg.offset]; exact himage.offset_le) (Nat.le_of_eq hgoff.symm)
      (fun b' hb' => by
        obtain rfl : page = b' := Option.some.inj (hg.buffer.symm.trans hb')
        exact hpagelen)
    refine ⟨(c.advance d n).atPageStart _, ?_, ⟨hst, ⟨?_, ?_, ?_, ?_⟩, ?_, E.pageSize_pos, fun h => (by cases h), hwb⟩, ?_⟩
    · rw [if_pos hend, hturn, hload]
      rfl
    · exact hg.oflag ▸ hflags.readable
    · exact hg.oflag ▸ hflags.notAppend
    · exact hsame.append.trans hg.append
    · exact hg.unaligned.trans hflags.aligned
    · exact hgoff.symm
    · exact hg.offset.trans hoff
  · -- The task ends inside the page, which is now dirty.
    refine ⟨c.advance d n, ?_, ⟨⟨himage, ?_, ?_⟩, hflags, ?_, ?_, ?_, hwb⟩, hoff⟩
    · rw [if_neg hend, if_neg (by omega)]
    · exact fun hc => absurd (hdirty.symm.trans hc) (by simp)
    · exact fun _ => by rw [show (c.advance d n).file = d from rfl, hbuf, Option.isSome_some]
    · show d.buf.bufferIndex * E.pageSize + (c.pageOffset + n) = d.fileOffset
      rw [hidx, hoff]
      omega
    · show c.pageOffset + n < E.pageSize
      omega
    · intro hnone
      cases hbuf.symm.trans hnone

/-- One pass of the loop overlays its bytes at the offset. -/
theorem transferStep_overwrite (hE : E.Reliable) {w : WriteTask} {c : Cursor}
    {content : List UInt8} (h : OverwriteCursor E w c content) :
    ∃ c', transferStep E w c = .ok c' ∧
      OverwriteCursor E w c' (writeAt content c.file.fileOffset (chunk E w c)) ∧
      c'.file.fileOffset = c.file.fileOffset + (chunk E w c).length := by
  obtain ⟨f, b, hload, hcur, hb, hoff⟩ := ensureBuffer_overwrite hE h
  obtain ⟨c', hbuf, hcur', hoff'⟩ := bufferedTransfer_overwrite hE hcur hb
  refine ⟨c', ?_, ?_, ?_⟩
  · rw [transferStep, hload]
    show (if f.blockWriteUnaligned then _ else _) = _
    rw [show f.blockWriteUnaligned = false from hcur.flags.aligned]
    exact hbuf
  · rw [← hoff]
    exact hcur'
  · rw [← hoff]
    exact hoff'

/-- The whole loop overlays the rest of the task. -/
theorem transferLoop_overwrite (hE : E.Reliable) {w : WriteTask} {c : Cursor}
    {content : List UInt8} (h : OverwriteCursor E w c content) {fuel : Nat}
    (hfuel : c.remainingBytes ≤ fuel) :
    ∃ c', transferLoop E w fuel c = .ok c' ∧
      OverwriteCursor E w c' (writeAt content c.file.fileOffset (w.buf.drop c.wbPos)) ∧
      c'.file.fileOffset = c.file.fileOffset + c.remainingBytes := by
  obtain ⟨c', hloop, ⟨content', hcur, htotal, hoff⟩, h0⟩ := transferLoop_rule
    (I := fun c' => ∃ content', OverwriteCursor E w c' content' ∧
      writeAt content' c'.file.fileOffset (w.buf.drop c'.wbPos)
        = writeAt content c.file.fileOffset (w.buf.drop c.wbPos) ∧
      c'.file.fileOffset + c'.remainingBytes = c.file.fileOffset + c.remainingBytes)
    (fun c' hc => hc.choose_spec.1.inPage)
    (fun c₁ ⟨content₁, hcur, htotal, hoff⟩ hrem => by
      obtain ⟨c₂, hpass, hcur₂, hoff₂⟩ := transferStep_overwrite hE hcur
      have hmoved := transferStep_moved hpass
      have hlen := length_chunk (E := E) w c₁ hcur.wbPos
      refine ⟨c₂, hpass, _, hcur₂, ?_, ?_⟩
      · rw [hoff₂, writeAt_writeAt_append _ _ hcur.state.offset_le, chunk_append_drop hmoved, htotal]
      · have := hmoved.2.1
        omega)
    fuel c ⟨content, h, rfl, rfl⟩ hfuel
  rw [drop_wbPos_eq_nil hcur.wbPos h0, writeAt_nil_of_le hcur.state.offset_le] at htotal
  exact ⟨c', hloop, htotal ▸ hcur, by omega⟩

/-- The loop starts at the offset. -/
theorem OverwriteFile.cursor {f : EfFile} {content : List UInt8} (h : OverwriteFile E f content)
    (w : WriteTask) : OverwriteCursor E w (startCursor E f w) content where
  state := h.toPageState
  flags := h.toOverwrites
  page := Nat.add_sub_of_le h.index_le_offset
  inPage := by
    have hlt := h.offset_lt
    have hpos := E.pageSize_pos
    show f.fileOffset - f.buf.bufferIndex * E.pageSize < E.pageSize
    omega
  empty := fun hnone => by
    show f.fileOffset - f.buf.bufferIndex * E.pageSize = 0
    rw [h.empty hnone, Nat.sub_self]
  wbPos := Nat.zero_add _

/-- The loop leaves a file. -/
theorem OverwriteCursor.overwriteFile {w : WriteTask} {c : Cursor} {content : List UInt8}
    (h : OverwriteCursor E w c content) : OverwriteFile E c.file content := by
  have hpage := h.page
  have hin := h.inPage
  refine ⟨⟨h.state, by omega, by omega, fun hnone => ?_⟩, h.flags⟩
  have hempty := h.empty hnone
  omega

/-- `ef_one_single_write` on an `O_RDWR` file overlays the task at the
offset and moves the offset behind it. -/
theorem efOneSingleWrite_overwrite (hE : E.Reliable) {f : EfFile} {content : List UInt8}
    (h : OverwriteFile E f content) (w : WriteTask) :
    ∃ f' n, efOneSingleWrite E f w = .ok (f', n) ∧
      OverwriteFile E f' (writeAt content f.fileOffset w.buf) ∧
      f'.fileOffset = f.fileOffset + w.nbyte := by
  obtain ⟨c, hloop, hcur, hoff⟩ := transferLoop_overwrite hE (h.cursor w) (Nat.le_refl w.nbyte)
  have hpos : appendPosition E f = .ok f := if_pos h.notAppend
  exact ⟨c.file, c.bytesTransfered, efOneSingleWrite_eq_ok.mpr ⟨f, c, hpos, hloop, rfl, rfl⟩,
    hcur.overwriteFile, hoff⟩

/-- `ef_file_fsync` on an `O_RDWR` file brings the content to the disk and
moves nothing. -/
theorem efFileFsync_overwrite (hE : E.Reliable) {f : EfFile} {content : List UInt8}
    (h : OverwriteFile E f content) :
    ∃ f', efFileFsync E f = .ok f' ∧ OverwriteFile E f' content ∧ f'.fd.data = content ∧
      f'.buf.isDirty = false ∧ f'.fileOffset = f.fileOffset := by
  have hsync : ∃ fd, syncBufToFile E f
      = .ok { f with fd := fd, buf := { f.buf with isDirty := false } } ∧
        fd.data = content ∧ fd.append = false := by
    cases hd : f.buf.isDirty with
    | false => exact ⟨f.fd, by rw [syncBufToFile_of_clean f hd, ← hd], h.clean hd, h.append⟩
    | true =>
      obtain ⟨b, hb⟩ := Option.isSome_iff_exists.mp (h.dirty hd)
      exact h.toPageImage.sync hE h.append hd hb
  obtain ⟨fd, hsync, hfd, happend⟩ := hsync
  have hidx := h.index_le_offset
  have hlt := h.offset_lt
  refine ⟨{ f with
    currFileSizeOnDisk := f.runningFileSize
    buf := { f.buf with isDirty := false }
    fd := fd }, ?_, ⟨⟨⟨h.toPageImage.synced hfd hidx, fun _ => hfd, fun hc => absurd hc (by simp)⟩,
      hidx, hlt, h.empty⟩, ⟨h.readable, h.notAppend, happend, h.aligned⟩⟩, hfd, rfl, rfl⟩
  rw [efFileFsync, hsync]
  show (if f.fileOffset - f.buf.bufferIndex * E.pageSize = E.pageSize then _ else _) = _
  rw [if_neg (by omega)]
  show (if f.oflag.has O_APPEND then _ else _) = _
  rw [if_neg h.notAppend]
  rfl

end Efio.Proofs.Evio
