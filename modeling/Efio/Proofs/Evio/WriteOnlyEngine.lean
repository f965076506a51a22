import Efio.Proofs.Evio.PageImage

/-!
# `Efio.Proofs.Evio.WriteOnlyEngine`: the page engine on a write-only file

On a file opened for writing only, `sync_buf_from_file` does not load the
page it enters. The buffer then holds a freshly allocated page, or what
was written into the page before, and `sync_buf_to_file` writes it whole.
`staleAt total p` is the byte that the buffer holds for position `p` until
`p` is written itself: the one a page earlier in the written stream
`total`, or a byte of the fresh page.

`WriteOnlyFile` is the invariant between two tasks: before the first byte
of a page goes in, the disk file is as it should be (`start`); after it,
the rest of the page is stale (`mid`, `Covered`).
-/

set_option autoImplicit false

namespace Efio.Proofs.Evio

open Efio.Lib
open Efio.Evio

/-- The byte in the buffer for a position `p` that is not yet written. -/
def staleAt (E : Env) (total : List UInt8) (p : Nat) : Option UInt8 :=
  if p < E.pageSize then (E.freshPage 0)[p]? else total[p - E.pageSize]?

/-- `content` holds the written stream `total` up to `w`, stale bytes from
there to `pageEnd`, and the old file `init` behind. -/
structure Covered (E : Env) (init total : List UInt8) (pageEnd w : Nat) (content : List UInt8) :
    Prop where
  length : content.length = max init.length w
  written : ∀ p < w, content[p]? = total[p]?
  stale : ∀ p, w ≤ p → p < pageEnd → p < init.length → content[p]? = staleAt E total p
  old : ∀ p, w ≤ p → pageEnd ≤ p → content[p]? = init[p]?

/-- The file is written, but not read, without `O_APPEND`. -/
structure WritesOnly (f : EfFile) : Prop where
  notReadOnly : f.oflag ≠ O_RDONLY
  notReadable : ¬ f.oflag.has O_RDWR
  notAppend : ¬ f.oflag.has O_APPEND
  append : f.fd.append = false
  aligned : f.blockWriteUnaligned = false

/-- No byte of the page has been written: the disk file holds `total` up to
`w` and `init` behind, and both sizes agree with it. -/
structure PageStart (f : EfFile) (init total : List UInt8) (w : Nat) : Prop where
  clean : f.buf.isDirty = false
  length : f.fd.data.length = max init.length w
  written : ∀ p < w, f.fd.data[p]? = total[p]?
  old : ∀ p, w ≤ p → f.fd.data[p]? = init[p]?
  running : f.runningFileSize = f.fd.data.length
  curr : f.currFileSizeOnDisk = f.fd.data.length

/-- A write-only file between two passes of the loop, after `fileOffset`
bytes of the stream `total`. -/
structure WriteOnlyFile (E : Env) (init total : List UInt8) (f : EfFile) : Prop
    extends WritesOnly f where
  index_le_offset : f.buf.bufferIndex * E.pageSize ≤ f.fileOffset
  offset_lt : f.fileOffset < f.buf.bufferIndex * E.pageSize + E.pageSize
  offset_le : f.fileOffset ≤ total.length
  noBuffer : f.buf.buffer = none → f.fileOffset = 0 ∧ f.fd.pages = 0
  buffer : ∀ b ∈ f.buf.buffer, b.length = E.pageSize ∧
    ∀ i < E.pageSize, f.fileOffset ≤ f.buf.bufferIndex * E.pageSize + i →
      b[i]? = staleAt E total (f.buf.bufferIndex * E.pageSize + i)
  start : f.fileOffset = f.buf.bufferIndex * E.pageSize → PageStart f init total f.fileOffset
  mid : f.fileOffset ≠ f.buf.bufferIndex * E.pageSize → f.buf.buffer.isSome ∧ ∃ content,
    PageImage E f content ∧
    Covered E init total (f.buf.bufferIndex * E.pageSize + E.pageSize) f.fileOffset content ∧
    (f.buf.isDirty = false → f.fd.data = content)

variable {E : Env} {init total : List UInt8}

/-- On a write-only file nothing is loaded. -/
theorem enteredPage_of_writesOnly {f : EfFile} (h : WritesOnly f) :
    enteredPage E f = f.buf.buffer.getD (E.freshPage f.fd.pages) := by
  unfold enteredPage
  rw [if_neg]
  exact fun hc => hc.2.elim h.notReadOnly h.notReadable

/-- With a buffer at hand, the file has an image whose page is stale from
the offset on, whether or not the page has been started. -/
theorem WriteOnlyFile.image {f : EfFile} (h : WriteOnlyFile E init total f) {b : List UInt8}
    (hb : f.buf.buffer = some b) :
    ∃ content, PageImage E f content ∧
      Covered E init total (f.buf.bufferIndex * E.pageSize + E.pageSize) f.fileOffset content := by
  obtain ⟨hblen, hstale⟩ := h.buffer b hb
  have hidx := h.index_le_offset
  by_cases hstart : f.fileOffset = f.buf.bufferIndex * E.pageSize
  · have hs := h.start hstart
    have hlen := hs.length
    refine ⟨_, PageImage.of_clean hb hblen hs.running hs.curr hidx (by omega), ?_⟩
    have hwlen := length_writeAt f.fd.data (f.buf.bufferIndex * E.pageSize) b
    refine ⟨by rw [length_resize, hlen], fun p hp => ?_, fun p hp _ _ => ?_,
      fun p hp hend => ?_⟩
    · rw [getElem?_resize_of_lt (by omega) (by omega), getElem?_writeAt_of_lt b (by omega) (by omega)]
      exact hs.written p hp
    · rw [getElem?_resize_of_lt (by omega) (by omega), getElem?_writeAt_mid _ (by omega) (by omega),
        hstale _ (by omega) (by omega), Nat.add_sub_of_le (by omega)]
    · rcases Nat.lt_or_ge p f.fd.data.length with hlt | hge
      · rw [getElem?_resize_of_lt hlt (by omega), getElem?_writeAt_of_ge _ (by omega)]
        exact hs.old p hp
      · rw [getElem?_resize_of_le hge, List.getElem?_eq_none (by omega)]
  · obtain ⟨-, content, himage, hcov, -⟩ := h.mid hstart
    exact ⟨content, himage, hcov⟩

/-- More bytes of the stream at the offset. -/
theorem Covered.write {content : List UInt8} {pageEnd w : Nat}
    (h : Covered E init total pageEnd w content) (ys : List UInt8)
    (hys : ∀ i < ys.length, ys[i]? = total[w + i]?) :
    Covered E init total pageEnd (w + ys.length) (writeAt content w ys) := by
  have hlen := h.length
  have hwlen := length_writeAt content w ys
  refine ⟨by omega, fun p hp => ?_, fun p hp hp' hinit => ?_, fun p hp hp' => ?_⟩
  · rcases Nat.lt_or_ge p w with hlt | hge
    · rw [getElem?_writeAt_of_lt ys hlt (by omega)]
      exact h.written p hlt
    · rw [getElem?_writeAt_mid _ hge hp, hys _ (by omega), Nat.add_sub_of_le hge]
  · rw [getElem?_writeAt_of_ge _ hp]
    exact h.stale p (by omega) hp' hinit
  · rw [getElem?_writeAt_of_ge _ hp]
    exact h.old p (by omega) hp'

/-! ### One pass of the loop -/

/-- What the loop of `ef_one_single_write` keeps on a write-only file:
`rest` is what the later tasks write. -/
structure WriteOnlyCursor (E : Env) (init total : List UInt8) (w : WriteTask) (rest : List UInt8)
    (c : Cursor) : Prop where
  file : WriteOnlyFile E init total c.file
  page : c.file.buf.bufferIndex * E.pageSize + c.pageOffset = c.file.fileOffset
  wbPos : c.wbPos + c.remainingBytes = w.nbyte
  stream : total.drop c.file.fileOffset = w.buf.drop c.wbPos ++ rest

variable {w : WriteTask} {rest : List UInt8}

theorem WriteOnlyCursor.inPage {c : Cursor} (h : WriteOnlyCursor E init total w rest c) :
    c.pageOffset < E.pageSize := by
  have hpg := h.page
  have hlt := h.file.offset_lt
  omega

/-- The bytes of one pass are the next ones of the stream. -/
theorem WriteOnlyCursor.chunk_stream {c : Cursor} (h : WriteOnlyCursor E init total w rest c) :
    ∀ i < (chunk E w c).length, (chunk E w c)[i]? = total[c.file.fileOffset + i]? := by
  intro i hi
  have hlen := length_chunk (E := E) w c h.wbPos
  have hdrop : i < (w.buf.drop c.wbPos).length := by
    have hwb := h.wbPos
    rw [List.length_drop]
    unfold WriteTask.nbyte at hwb
    omega
  rw [chunk, List.getElem?_take_of_lt (by omega), ← List.getElem?_drop, h.stream,
    List.getElem?_append_left hdrop]

/-- The stream at the offset after one pass. -/
theorem WriteOnlyCursor.stream_drop {c : Cursor} (h : WriteOnlyCursor E init total w rest c) {n : Nat}
    (hn : n ≤ c.remainingBytes) :
    total.drop (c.file.fileOffset + n) = w.buf.drop (c.wbPos + n) ++ rest := by
  have hwb := h.wbPos
  unfold WriteTask.nbyte at hwb
  rw [← List.drop_drop, h.stream, List.drop_append_of_le_length (by rw [List.length_drop]; omega),
    List.drop_drop]

theorem WriteOnlyCursor.offset_add_le {c : Cursor} (h : WriteOnlyCursor E init total w rest c)
    {n : Nat} (hn : n ≤ c.remainingBytes) : c.file.fileOffset + n ≤ total.length := by
  have hle := h.file.offset_le
  have hlen := congrArg List.length h.stream
  have hwb := h.wbPos
  unfold WriteTask.nbyte at hwb
  rw [List.length_append, List.length_drop, List.length_drop] at hlen
  omega

/-- The test at the head of the loop leaves a file with a buffer. Only the
very first pass finds none. -/
theorem ensureBuffer_writeOnly (hE : E.Reliable) {f : EfFile} (h : WriteOnlyFile E init total f) :
    ∃ f' b, ensureBuffer E f = .ok f' ∧ WriteOnlyFile E init total f' ∧ f'.buf.buffer = some b ∧
      f'.fileOffset = f.fileOffset ∧ f'.buf.bufferIndex = f.buf.bufferIndex := by
  cases hbuf : f.buf.buffer with
  | some b =>
    refine ⟨f, b, ?_, h, hbuf, rfl, rfl⟩
    rw [ensureBuffer, if_neg (fun hc => by simp [hbuf] at hc)]
  | none =>
    obtain ⟨hoff, hpages⟩ := h.noBuffer hbuf
    have hidx : f.buf.bufferIndex * E.pageSize = 0 := by
      have := h.index_le_offset
      omega
    have hs := h.start (by omega)
    obtain ⟨fd, hload, hsame⟩ := syncBufFromFile_eq hE f
    have hpage : enteredPage E f = E.freshPage 0 := by
      rw [enteredPage_of_writesOnly h.toWritesOnly, hbuf, Option.getD_none, hpages]
    refine ⟨{ f with
      buf := { f.buf with buffer := some (enteredPage E f), isDirty := false }
      fd := fd }, enteredPage E f, ?_, ⟨⟨h.notReadOnly, h.notReadable, h.notAppend, hsame.append.trans h.append,
      h.aligned⟩, h.index_le_offset, h.offset_lt, h.offset_le, fun hc => absurd hc (by simp), ?_, ?_,
      fun hne => absurd (hoff.trans hidx.symm) hne⟩, rfl, rfl, rfl⟩
    · rw [ensureBuffer, if_pos ⟨hbuf, hs.clean⟩]
      exact hload
    · intro b hb
      obtain rfl : enteredPage E f = b := Option.some.inj hb
      rw [hpage]
      refine ⟨length_freshPage 0, fun i hi _ => ?_⟩
      show (E.freshPage 0)[i]? = staleAt E total (f.buf.bufferIndex * E.pageSize + i)
      rw [hidx, Nat.zero_add, staleAt, if_pos hi]
    · intro _
      have hdata := hsame.data
      exact ⟨rfl, by rw [hdata]; exact hs.length, by rw [hdata]; exact hs.written,
        by rw [hdata]; exact hs.old, by rw [hdata]; exact hs.running, by rw [hdata]; exact hs.curr⟩

/-- The buffer that has just been filled is what the next page starts
with. -/
theorem stale_of_full {f : EfFile} {content page : List UInt8} {pageEnd : Nat}
    (himage : PageImage E f content) (hbuf : f.buf.buffer = some page)
    (hcov : Covered E init total pageEnd f.fileOffset content)
    (hend : f.fileOffset = f.buf.bufferIndex * E.pageSize + E.pageSize) :
    ∀ i < E.pageSize, page[i]? = staleAt E total (f.fileOffset + i) := by
  intro i hi
  have hlen := hcov.length
  obtain ⟨-, hagree⟩ := himage.page page hbuf
  rw [← hagree i hi (by omega), hcov.written _ (by omega), staleAt, if_neg (by omega), hend]
  congr 1
  omega

/-- The page after a full one, with nothing loaded: it is not started. -/
theorem TurnedPage.writeOnlyFile {d g : EfFile} {content page : List UInt8}
    (hg : TurnedPage d content page g) (hflags : WritesOnly d) (himage : PageImage E d content)
    (hcov : Covered E init total d.fileOffset d.fileOffset content)
    (hend : d.fileOffset = d.buf.bufferIndex * E.pageSize + E.pageSize)
    (hbuf : d.buf.buffer = some page) (hle : d.fileOffset ≤ total.length)
    {fd : Descriptor} (hsame : SameFile g.fd fd) :
    WriteOnlyFile E init total { g with
      buf := { g.buf with buffer := some page, isDirty := false }
      fd := fd } := by
  have hdata : fd.data = content := hsame.data.trans hg.data
  have hpos := E.pageSize_pos
  have hidx : g.buf.bufferIndex * E.pageSize = d.fileOffset := by
    rw [hg.index, Nat.add_mul, Nat.one_mul]
    exact hend.symm
  refine ⟨⟨hg.oflag ▸ hflags.notReadOnly, hg.oflag ▸ hflags.notReadable,
    hg.oflag ▸ hflags.notAppend, hsame.append.trans hg.append, hg.unaligned.trans hflags.aligned⟩,
    Nat.le_of_eq (hidx.trans hg.offset.symm), ?_, hg.offset ▸ hle, fun hc => absurd hc (by simp),
    ?_, ?_, fun hne => absurd (hg.offset.trans hidx.symm) hne⟩
  · show g.fileOffset < g.buf.bufferIndex * E.pageSize + E.pageSize
    rw [hidx, hg.offset]
    omega
  · intro b hb
    obtain rfl : page = b := Option.some.inj hb
    refine ⟨(himage.page page hbuf).1, fun i hi _ => ?_⟩
    show page[i]? = staleAt E total (g.buf.bufferIndex * E.pageSize + i)
    rw [hidx]
    exact stale_of_full himage hbuf hcov hend i hi
  · intro _
    show PageStart _ init total g.fileOffset
    rw [hg.offset]
    exact ⟨rfl, by rw [hdata]; exact hcov.length, by rw [hdata]; exact hcov.written,
      by rw [hdata]; exact fun p hp => hcov.old p hp hp,
      by rw [hdata]; exact hg.running, by rw [hdata]; exact hg.curr⟩

/-- The copy into the page buffer puts the next bytes of the stream at the
offset. A full page goes to the disk; the next one is entered unread. -/
theorem bufferedTransfer_writeOnly (hE : E.Reliable) {c : Cursor}
    (h : WriteOnlyCursor E init total w rest c) (hrem : 0 < c.remainingBytes) {b : List UInt8}
    (hb : c.file.buf.buffer = some b) :
    ∃ c', bufferedTransfer E w c (min c.remainingBytes (E.pageSize - c.pageOffset)) = .ok c' ∧
      WriteOnlyCursor E init total w rest c' := by
  obtain ⟨n, hn⟩ : ∃ n, min c.remainingBytes (E.pageSize - c.pageOffset) = n := ⟨_, rfl⟩
  have hin := h.inPage
  have hpg := h.page
  have hlen : (chunk E w c).length = n := (length_chunk w c h.wbPos).trans hn
  have hwb : c.wbPos + n + (c.remainingBytes - n) = w.nbyte := by
    have := h.wbPos
    omega
  obtain ⟨content, himage₀, hcov₀⟩ := h.file.image hb
  obtain ⟨hblen, hstale⟩ := h.file.buffer b hb
  obtain ⟨content', hcontent'⟩ : ∃ x, writeAt content c.file.fileOffset (chunk E w c) = x := ⟨_, rfl⟩
  obtain ⟨page, hpage⟩ : ∃ x, writeAt b c.pageOffset (chunk E w c) = x := ⟨_, rfl⟩
  obtain ⟨d, hd⟩ : ∃ d, dirtied E c.file page n = d := ⟨_, rfl⟩
  have himage : PageImage E d content' := by
    have := himage₀.dirtied (chunk E w c) hb hpg (by omega) hin
    rwa [hpage, hlen, hd, hcontent'] at this
  have hstep : bufferedTransfer E w c n
      = if c.pageOffset + n = E.pageSize then
          ((syncBufToFile E d).bind (nextPage E)).map (c.advance d n).atPageStart
        else if c.pageOffset + n > E.pageSize then
          .error (.evAbort "Should have never reached here")
        else .ok (c.advance d n) := by
    have hchunk : (w.buf.drop c.wbPos).take n = chunk E w c := by rw [chunk, hn]
    simp only [bufferedTransfer, hb, hchunk, hpage, hd, Cursor.advance]
    cases syncBufToFile E d <;> rfl
  have hflags : WritesOnly d := by
    rw [← hd]
    exact ⟨h.file.notReadOnly, h.file.notReadable, h.file.notAppend, h.file.append, h.file.aligned⟩
  have hdirty : d.buf.isDirty = true := by rw [← hd]; rfl
  have hbuf : d.buf.buffer = some page := by rw [← hd]; rfl
  have hidx : d.buf.bufferIndex = c.file.buf.bufferIndex := by rw [← hd]; rfl
  have hoff : d.fileOffset = c.file.fileOffset + n := by rw [← hd]; rfl
  have hcov : Covered E init total (d.buf.bufferIndex * E.pageSize + E.pageSize) d.fileOffset
      content' := by
    have := hcov₀.write (chunk E w c) h.chunk_stream
    rwa [hlen, hcontent', ← hoff, ← hidx] at this
  have hle : d.fileOffset ≤ total.length := hoff ▸ h.offset_add_le (by omega)
  have hstream := h.stream_drop (n := n) (by omega)
  rw [hn, hstep]
  by_cases hend : c.pageOffset + n = E.pageSize
  · -- The page is full.
    have hend' : d.fileOffset = d.buf.bufferIndex * E.pageSize + E.pageSize := by
      rw [hidx, hoff]
      omega
    rw [← hend'] at hcov
    obtain ⟨g, hturn, hg⟩ := himage.turn hE hflags.append hdirty hbuf hend'
    obtain ⟨fd, hload, hsame⟩ := syncBufFromFile_eq hE g
    have hentered : enteredPage E g = page := by
      rw [enteredPage_of_writesOnly ⟨hg.oflag ▸ hflags.notReadOnly, hg.oflag ▸ hflags.notReadable,
        hg.oflag ▸ hflags.notAppend, hg.append, hg.unaligned.trans hflags.aligned⟩, hg.buffer,
        Option.getD_some]
    rw [hentered] at hload
    refine ⟨(c.advance d n).atPageStart _, ?_,
      ⟨hg.writeOnlyFile hflags himage hcov hend' hbuf hle hsame, ?_, hwb, ?_⟩⟩
    · rw [if_pos hend, hturn, hload]
      rfl
    · show g.buf.bufferIndex * E.pageSize + 0 = g.fileOffset
      rw [hg.index, hg.offset, hend', Nat.add_mul]
      omega
    · show total.drop g.fileOffset = _
      rw [hg.offset, hoff]
      exact hstream
  · -- The task ends inside the page, which is now dirty.
    have hstart : d.fileOffset ≠ d.buf.bufferIndex * E.pageSize := by
      rw [hidx, hoff]
      omega
    refine ⟨c.advance d n, by rw [if_neg hend, if_neg (by omega)],
      ⟨⟨hflags, ?_, ?_, hle, ?_, ?_, fun hc => absurd hc hstart, ?_⟩, ?_, hwb, ?_⟩⟩
    · show d.buf.bufferIndex * E.pageSize ≤ d.fileOffset
      rw [hidx, hoff]
      omega
    · show d.fileOffset < d.buf.bufferIndex * E.pageSize + E.pageSize
      rw [hidx, hoff]
      omega
    · exact fun hc => absurd (hbuf.symm.trans hc) (by simp)
    · intro b' hb'
      obtain rfl : page = b' := Option.some.inj (hbuf.symm.trans hb')
      refine ⟨(himage.page page hbuf).1, fun i hi hge => ?_⟩
      change d.fileOffset ≤ d.buf.bufferIndex * E.pageSize + i at hge
      rw [hidx, hoff] at hge
      rw [← hpage, getElem?_writeAt_of_ge _ (by omega), hstale i hi (by omega), ← hidx]
      rfl
    · exact fun _ => ⟨by rw [show (c.advance d n).file = d from rfl, hbuf, Option.isSome_some],
        content', himage, hcov, fun hc => absurd (hdirty.symm.trans hc) (by simp)⟩
    · show d.buf.bufferIndex * E.pageSize + (c.pageOffset + n) = d.fileOffset
      rw [hidx, hoff]
      omega
    · show total.drop d.fileOffset = _
      rw [hoff]
      exact hstream

/-! ### One task -/

/-- One pass of the loop. -/
theorem transferStep_writeOnly (hE : E.Reliable) {c : Cursor}
    (h : WriteOnlyCursor E init total w rest c) (hrem : 0 < c.remainingBytes) :
    ∃ c', transferStep E w c = .ok c' ∧ WriteOnlyCursor E init total w rest c' := by
  obtain ⟨f, b, hload, hf, hb, hoff, hidx⟩ := ensureBuffer_writeOnly hE h.file
  have hcur : WriteOnlyCursor E init total w rest { c with file := f } :=
    ⟨hf, by
      show f.buf.bufferIndex * E.pageSize + c.pageOffset = f.fileOffset
      rw [hidx, hoff]
      exact h.page, h.wbPos, by
      show total.drop f.fileOffset = _
      rw [hoff]
      exact h.stream⟩
  obtain ⟨c', hbuf, hcur'⟩ := bufferedTransfer_writeOnly hE hcur hrem hb
  refine ⟨c', ?_, hcur'⟩
  rw [transferStep, hload]
  show (if f.blockWriteUnaligned then _ else _) = _
  rw [show f.blockWriteUnaligned = false from hf.aligned]
  exact hbuf

/-- The loop starts at the offset. -/
theorem WriteOnlyFile.cursor {f : EfFile} (h : WriteOnlyFile E init total f)
    (hstream : total.drop f.fileOffset = w.buf ++ rest) :
    WriteOnlyCursor E init total w rest (startCursor E f w) :=
  ⟨h, Nat.add_sub_of_le h.index_le_offset, Nat.zero_add _, hstream⟩

/-- `ef_one_single_write` puts the next task of the stream at the offset. -/
theorem efOneSingleWrite_writeOnly (hE : E.Reliable) {f : EfFile}
    (h : WriteOnlyFile E init total f) (hstream : total.drop f.fileOffset = w.buf ++ rest) :
    ∃ f' n, efOneSingleWrite E f w = .ok (f', n) ∧ WriteOnlyFile E init total f' ∧
      total.drop f'.fileOffset = rest := by
  obtain ⟨c, hloop, hcur, h0⟩ := transferLoop_rule (E := E) (w := w)
    (I := WriteOnlyCursor E init total w rest) (fun c hc => hc.inPage)
    (fun c hc hrem => transferStep_writeOnly hE hc hrem) w.nbyte _ (h.cursor hstream) (Nat.le_refl _)
  have hpos : appendPosition E f = .ok f := if_pos h.notAppend
  refine ⟨c.file, c.bytesTransfered, efOneSingleWrite_eq_ok.mpr ⟨f, c, hpos, hloop, rfl, rfl⟩,
    hcur.file, ?_⟩
  rw [hcur.stream, drop_wbPos_eq_nil hcur.wbPos h0, List.nil_append]

/-- The first position behind `w` that `sync_buf_to_file` does not reach:
the end of the page `w` lies in, if that page has been started. -/
def pageEndOf (E : Env) (w : Nat) : Nat :=
  if w % E.pageSize = 0 then w else w / E.pageSize * E.pageSize + E.pageSize

/-- `ef_file_fsync` leaves the stream, the stale rest of its last page and
the old file behind that page. -/
theorem efFileFsync_writeOnly (hE : E.Reliable) {f : EfFile} (h : WriteOnlyFile E init total f) :
    ∃ f', efFileFsync E f = .ok f' ∧ WriteOnlyFile E init total f' ∧
      f'.fileOffset = f.fileOffset ∧
      Covered E init total (pageEndOf E f.fileOffset) f.fileOffset f'.fd.data := by
  have hidx := h.index_le_offset
  have hlt := h.offset_lt
  have hfsync : ∀ fd, syncBufToFile E f
      = .ok { f with fd := fd, buf := { f.buf with isDirty := false } } →
      efFileFsync E f = .ok { f with
        currFileSizeOnDisk := f.runningFileSize
        buf := { f.buf with isDirty := false }
        fd := fd } := by
    intro fd hsync
    rw [efFileFsync, hsync]
    show (if f.fileOffset - f.buf.bufferIndex * E.pageSize = E.pageSize then _ else _) = _
    rw [if_neg (by omega)]
    show (if f.oflag.has O_APPEND then _ else _) = _
    rw [if_neg h.notAppend]
    rfl
  by_cases hstart : f.fileOffset = f.buf.bufferIndex * E.pageSize
  · -- Nothing of the page was written.
    have hs := h.start hstart
    have hsync : syncBufToFile E f
        = .ok { f with fd := f.fd, buf := { f.buf with isDirty := false } } := by
      rw [syncBufToFile_of_clean f hs.clean, ← hs.clean]
    refine ⟨_, hfsync _ hsync, ⟨⟨h.notReadOnly, h.notReadable, h.notAppend, h.append, h.aligned⟩,
      hidx, hlt, h.offset_le, h.noBuffer, h.buffer,
      fun _ => ⟨rfl, hs.length, hs.written, hs.old, hs.running, hs.running⟩,
      fun hne => absurd hstart hne⟩, rfl, ?_⟩
    have hend : pageEndOf E f.fileOffset = f.fileOffset := by
      rw [pageEndOf, if_pos (by rw [hstart, Nat.mul_mod_left])]
    rw [hend]
    exact ⟨hs.length, hs.written, fun p hp hp' => absurd hp' (by omega), fun p hp _ => hs.old p hp⟩
  · -- A page that was started is brought to the disk whole.
    obtain ⟨hsome, content, himage, hcov, hclean⟩ := h.mid hstart
    obtain ⟨b, hb⟩ := Option.isSome_iff_exists.mp hsome
    obtain ⟨fd, hsync, hfd, happend⟩ : ∃ fd, syncBufToFile E f
        = .ok { f with fd := fd, buf := { f.buf with isDirty := false } } ∧
          fd.data = content ∧ fd.append = false := by
      cases hd : f.buf.isDirty with
      | false => exact ⟨f.fd, by rw [syncBufToFile_of_clean f hd, ← hd], hclean hd, h.append⟩
      | true => exact himage.sync hE h.append hd hb
    refine ⟨_, hfsync _ hsync, ⟨⟨h.notReadOnly, h.notReadable, h.notAppend, happend, h.aligned⟩,
      hidx, hlt, h.offset_le, fun hc => absurd (hb.symm.trans hc) (by simp), h.buffer,
      fun hc => absurd hc hstart,
      fun _ => ⟨hsome, content, himage.synced hfd hidx, hcov, fun _ => hfd⟩⟩, rfl, ?_⟩
    have hdiv : f.fileOffset / E.pageSize = f.buf.bufferIndex :=
      Nat.div_eq_of_lt_le hidx (by rw [Nat.succ_mul]; exact hlt)
    have hend : pageEndOf E f.fileOffset = f.buf.bufferIndex * E.pageSize + E.pageSize := by
      have hmod := Nat.div_add_mod' f.fileOffset E.pageSize
      rw [hdiv] at hmod
      rw [pageEndOf, if_neg (by omega), hdiv]
    rw [hend]
    exact hfd.symm ▸ hcov

end Efio.Proofs.Evio
