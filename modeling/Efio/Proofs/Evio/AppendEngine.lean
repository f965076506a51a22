import Efio.Proofs.Evio.Sync

/-!
# `Efio.Proofs.Evio.AppendEngine`: the page engine on an append file

`AppendState f content` says that the file `f` stands for `content`: the
disk holds it, or the disk holds its whole pages and the dirty buffer the
rest. `AppendCursor` adds what the loop of `ef_one_single_write` keeps:
the offset is the end of `content`, and a task is written directly only
from its first byte.

`transferStep_append` is the step lemma; `efOneSingleWrite_append` and
`efFileFsync_append` follow, and `execTask_append` puts them together.
-/

set_option autoImplicit false

namespace Efio.Proofs.Evio

open Efio.Lib
open Efio.Evio

/-- The page buffer of a dirty append file: the disk holds the whole pages
of `content` before it, and the buffer starts with the rest. -/
structure DirtyTail (E : Env) (f : EfFile) (content : List UInt8) : Prop where
  buffered : f.blockWriteUnaligned = false
  index : f.buf.bufferIndex * E.pageSize = f.fd.data.length
  offset : f.fileOffset = content.length
  tail : ∃ b, f.buf.buffer = some b ∧
    content = f.fd.data ++ b.take (content.length - f.fd.data.length)
  inPage : content.length < f.fd.data.length + E.pageSize

/-- The append file `f` stands for `content`. -/
structure AppendState (E : Env) (f : EfFile) (content : List UInt8) : Prop where
  oflag : f.oflag.has O_APPEND
  append : f.fd.append = true
  running : f.runningFileSize = content.length
  curr : f.currFileSizeOnDisk = f.fd.data.length
  bufLen : ∀ b ∈ f.buf.buffer, b.length = E.pageSize
  clean : f.buf.isDirty = false →
    f.fd.data = content ∧ (f.blockWriteUnaligned = true ∨ content.length % E.pageSize = 0)
  dirty : f.buf.isDirty = true → DirtyTail E f content

/-- An append file between two tasks: the offset is in the buffer's page. -/
structure AppendFile (E : Env) (f : EfFile) (content : List UInt8) : Prop
    extends AppendState E f content where
  inPage : f.fileOffset < f.buf.bufferIndex * E.pageSize + E.pageSize

/-- What the loop of `ef_one_single_write` keeps on an append file. -/
structure AppendCursor (E : Env) (w : WriteTask) (c : Cursor) (content : List UInt8) : Prop where
  state : AppendState E c.file content
  offset : c.file.fileOffset = content.length
  page : c.file.buf.bufferIndex * E.pageSize + c.pageOffset = content.length
  inPage : c.pageOffset < E.pageSize
  wbPos : c.wbPos + c.remainingBytes = w.nbyte
  -- The direct write takes its bytes from the start of the task.
  direct : c.file.blockWriteUnaligned = true → c.remainingBytes = 0 ∨ c.wbPos = 0

variable {E : Env}

/-- The clean state at a page boundary, with a buffer ready: the start of
buffered mode. -/
theorem appendState_load (hE : E.Reliable) {f : EfFile} {content : List UInt8}
    (h : AppendState E f content) (hclean : f.buf.isDirty = false) :
    ∃ f', syncBufFromFile E f = .ok f' ∧ AppendState E f' content ∧
      f'.buf.buffer.isSome ∧ f'.buf.isDirty = false ∧
      f'.fileOffset = f.fileOffset ∧ f'.buf.bufferIndex = f.buf.bufferIndex ∧
      f'.blockWriteUnaligned = f.blockWriteUnaligned := by
  obtain ⟨fd, hload, hsame⟩ := syncBufFromFile_eq hE f
  refine ⟨_, hload, ?_, rfl, rfl, rfl, rfl, rfl⟩
  refine ⟨h.oflag, hsame.append.trans h.append, h.running, ?_, ?_, ?_, by simp⟩
  · exact h.curr.trans (by rw [hsame.data])
  · intro b hb
    obtain rfl : enteredPage E f = b := by simpa using hb
    exact length_enteredPage f h.bufLen
  · intro _
    rw [hsame.data]
    exact h.clean hclean

/-- A direct write appends its bytes. At the page end it hands over to the
page buffer. -/
theorem unalignedTransfer_append (hE : E.Reliable) {w : WriteTask} {c : Cursor}
    {content : List UInt8} (h : AppendCursor E w c content)
    (hun : c.file.blockWriteUnaligned = true) (hrem : 0 < c.remainingBytes) :
    ∃ c', unalignedTransfer E w c (min c.remainingBytes (E.pageSize - c.pageOffset)) = .ok c' ∧
      AppendCursor E w c' (content ++ chunk E w c) := by
  obtain ⟨n, hn⟩ : ∃ n, min c.remainingBytes (E.pageSize - c.pageOffset) = n := ⟨_, rfl⟩
  have hin := h.inPage
  have hlen : (chunk E w c).length = n := (length_chunk w c h.wbPos).trans hn
  have hpos : c.wbPos = 0 := by
    rcases h.direct hun with h0 | h0
    · omega
    · exact h0
  have hclean : c.file.buf.isDirty = false := by
    cases hd : c.file.buf.isDirty with
    | false => rfl
    | true => exact absurd (h.state.dirty hd).buffered (by simp [hun])
  have hbuf : w.buf.take n = chunk E w c := by simp [chunk, hpos, hn]
  have hflag : c.file.oflag.has (O_APPEND ||| O_WRONLY) := OFlag.has_or.mpr (Or.inl h.state.oflag)
  obtain ⟨hdata, -⟩ := h.state.clean hclean
  have hneg : ¬ (((chunk E w c).length : Int) = -1) := by omega
  obtain ⟨fd, hwrite, hfd, happend⟩ :=
    pwrite_of_reliable hE c.file.fd (chunk E w c) c.file.currFileSizeOnDisk
  rw [store_of_append h.state.append, hdata] at hfd
  rw [h.state.append] at happend
  -- The file after `pwrite` and the size updates.
  obtain ⟨f, hf⟩ : ∃ f : EfFile, f = { c.file with
      fd := fd
      fileOffset := c.file.fileOffset + n
      currFileSizeOnDisk := c.file.currFileSizeOnDisk + n
      runningFileSize := c.file.runningFileSize + n } := ⟨_, rfl⟩
  have hstep : unalignedTransfer E w c n
      = if c.pageOffset + n = E.pageSize then (leaveUnaligned E f).map (c.advance f n).atPageStart
        else .ok (c.advance f n) := by
    simp only [unalignedTransfer, hflag, not_true_eq_false, if_false, hbuf, hwrite, hneg, hf,
      Cursor.advance]
  have hlen' : (content ++ chunk E w c).length = content.length + n := by
    rw [List.length_append, hlen]
  have hstate : AppendState E f (content ++ chunk E w c) := by
    subst hf
    refine ⟨h.state.oflag, happend, ?_, ?_, h.state.bufLen, ?_, ?_⟩
    · rw [hlen', ← h.state.running]
    · rw [hfd, hlen', ← hdata, ← h.state.curr]
    · exact fun _ => ⟨hfd, Or.inl hun⟩
    · intro hd
      exact absurd hclean (by simp [show c.file.buf.isDirty = true from hd])
  have hwb : c.wbPos + n + (c.remainingBytes - n) = w.nbyte := by
    have := h.wbPos
    omega
  have hpg := h.page
  have hoff : f.fileOffset = (content ++ chunk E w c).length := by
    rw [hlen', hf, ← h.offset]
  have hbi : f.buf.bufferIndex = c.file.buf.bufferIndex := by rw [hf]
  rw [hn, hstep]
  by_cases hend : c.pageOffset + n = E.pageSize
  · -- The page end is reached: the next page starts clean, in buffered mode.
    have hfull : (content ++ chunk E w c).length = (c.file.buf.bufferIndex + 1) * E.pageSize := by
      rw [hlen', Nat.add_mul]
      omega
    have hturned : AppendState E { f with
        fd := { f.fd with direct := true }
        blockWriteUnaligned := false
        buf := { f.buf with isDirty := false, bufferIndex := f.buf.bufferIndex + 1 } }
        (content ++ chunk E w c) :=
      ⟨hstate.oflag, hstate.append, hstate.running, hstate.curr, hstate.bufLen,
        fun _ => ⟨by rw [← (hstate.clean (by rw [hf]; exact hclean)).1],
          Or.inr (by rw [hfull, Nat.mul_mod_left])⟩,
        fun hd => absurd hd (by simp)⟩
    obtain ⟨f', hload, hst, -, -, hoff', hidx, hun'⟩ := appendState_load hE hturned rfl
    refine ⟨(c.advance f n).atPageStart f', ?_, ⟨hst, ?_, ?_, E.pageSize_pos, hwb, ?_⟩⟩
    · rw [if_pos hend, leaveUnaligned, hload]
      rfl
    · exact hoff'.trans hoff
    · show f'.buf.bufferIndex * E.pageSize + 0 = _
      rw [hidx, hfull, Nat.add_zero, hbi]
    · intro hun''
      exact absurd (hun'.symm.trans hun'') (by simp)
  · -- The task ends inside the page.
    refine ⟨c.advance f n, if_neg hend, ⟨hstate, hoff, ?_, ?_, hwb, ?_⟩⟩
    · show f.buf.bufferIndex * E.pageSize + (c.pageOffset + n) = _
      rw [hlen', hbi, ← hpg, Nat.add_assoc]
    · show c.pageOffset + n < E.pageSize
      omega
    · intro _
      left
      show c.remainingBytes - n = 0
      omega

/-- The copy into the page buffer. The buffer starts with the bytes of
`content` behind the disk file, and afterwards also with the new ones. -/
theorem bufferedTransfer_append (hE : E.Reliable) {w : WriteTask} {c : Cursor}
    {content : List UInt8} (h : AppendCursor E w c content)
    (hun : c.file.blockWriteUnaligned = false) (hbuf : c.file.buf.buffer.isSome) :
    ∃ c', bufferedTransfer E w c (min c.remainingBytes (E.pageSize - c.pageOffset)) = .ok c' ∧
      AppendCursor E w c' (content ++ chunk E w c) := by
  obtain ⟨n, hn⟩ : ∃ n, min c.remainingBytes (E.pageSize - c.pageOffset) = n := ⟨_, rfl⟩
  obtain ⟨b, hb⟩ := Option.isSome_iff_exists.mp hbuf
  have hin := h.inPage
  have hlen : (chunk E w c).length = n := (length_chunk w c h.wbPos).trans hn
  have hblen : b.length = E.pageSize := h.state.bufLen b hb
  have hchunk : (w.buf.drop c.wbPos).take n = chunk E w c := by rw [chunk, hn]
  -- Clean or dirty, the disk holds the whole pages and the buffer the rest.
  have hpages : c.file.buf.bufferIndex * E.pageSize = c.file.fd.data.length ∧
      content = c.file.fd.data ++ b.take c.pageOffset := by
    have hpg := h.page
    cases hd : c.file.buf.isDirty with
    | false =>
      obtain ⟨hdata, hmode⟩ := h.state.clean hd
      have hmod : content.length % E.pageSize = 0 := by
        rcases hmode with h1 | h1
        · exact absurd h1 (by simp [hun])
        · exact h1
      have hpo : c.pageOffset = 0 := by
        rw [← hpg, Nat.add_comm, Nat.add_mul_mod_self_right, Nat.mod_eq_of_lt hin] at hmod
        exact hmod
      rw [hdata, hpo, List.take_zero, List.append_nil]
      exact ⟨by omega, rfl⟩
    | true =>
      have hdirty := h.state.dirty hd
      obtain ⟨b', hb', htail⟩ := hdirty.tail
      obtain rfl : b' = b := by
        rw [hb] at hb'
        exact (Option.some.inj hb').symm
      have hidx := hdirty.index
      refine ⟨hidx, ?_⟩
      rwa [show content.length - c.file.fd.data.length = c.pageOffset by omega] at htail
  obtain ⟨hidx, hcontent⟩ := hpages
  obtain ⟨page, hpage⟩ : ∃ page, writeAt b c.pageOffset (chunk E w c) = page := ⟨_, rfl⟩
  have hpagelen : page.length = E.pageSize := by
    rw [← hpage, length_writeAt, hblen, hlen]
    omega
  have htake : page.take (c.pageOffset + n) = b.take c.pageOffset ++ chunk E w c := by
    rw [← hpage, ← hlen]
    exact take_writeAt _ (by omega)
  have hpg := h.page
  have hgrown : grownSize E c.file n = content.length + n := by
    have hmod : content.length % E.pageSize = c.pageOffset := by
      rw [← hpg, Nat.add_comm, Nat.add_mul_mod_self_right, Nat.mod_eq_of_lt hin]
    rw [grownSize_eq c.file (Nat.le_of_eq (by rw [h.offset, h.state.running])) (by rw [h.offset, hmod]; omega),
      h.offset, h.state.running]
    omega
  have hlen' : (content ++ chunk E w c).length = content.length + n := by
    rw [List.length_append, hlen]
  have hcontent' : content ++ chunk E w c = c.file.fd.data ++ page.take (c.pageOffset + n) := by
    rw [htake, ← List.append_assoc, ← hcontent]
  have hwb : c.wbPos + n + (c.remainingBytes - n) = w.nbyte := by
    have := h.wbPos
    omega
  obtain ⟨d, hd⟩ : ∃ d, dirtied E c.file page n = d := ⟨_, rfl⟩
  have hstep : bufferedTransfer E w c n
      = if c.pageOffset + n = E.pageSize then do
          let f ← syncBufToFile E d
          (nextPage E f).map (c.advance d n).atPageStart
        else if c.pageOffset + n > E.pageSize then
          .error (.evAbort "Should have never reached here")
        else .ok (c.advance d n) := by
    simp only [bufferedTransfer, hb, hchunk, hpage, hd, Cursor.advance]
  have hoff : d.fileOffset = (content ++ chunk E w c).length := by
    rw [hlen', ← hd, dirtied, h.offset]
  rw [hn, hstep]
  by_cases hend : c.pageOffset + n = E.pageSize
  · -- The page is full: it goes to the disk, which then holds everything.
    obtain ⟨fd, hsync, hfd, happend⟩ := syncBufToFile_eq hE d page (by rw [← hd]; rfl)
      (by rw [← hd]; rfl)
    have hdata : fd.data = content ++ chunk E w c := by
      have hall : content ++ chunk E w c = c.file.fd.data ++ page := by
        rw [hcontent', List.take_of_length_le (by omega)]
      rw [hfd, ← hd]
      show resize (c.file.fd.store page _) (grownSize E c.file n) = _
      rw [store_of_append h.state.append, hgrown, ← hlen', hall, resize_length]
    have hfull : (content ++ chunk E w c).length = (c.file.buf.bufferIndex + 1) * E.pageSize := by
      rw [hlen', Nat.add_mul]
      omega
    have hcurr := h.state.curr
    have hnext : AppendState E { d with
        fd := fd
        currFileSizeOnDisk :=
          if (d.buf.bufferIndex + 1) * E.pageSize > d.currFileSizeOnDisk then
            (d.buf.bufferIndex + 1) * E.pageSize
          else d.currFileSizeOnDisk
        buf := { d.buf with bufferIndex := d.buf.bufferIndex + 1, isDirty := false } }
        (content ++ chunk E w c) := by
      subst hd
      refine ⟨h.state.oflag, happend.trans h.state.append, ?_, ?_, ?_, ?_, ?_⟩
      · exact hgrown.trans hlen'.symm
      · show (if (c.file.buf.bufferIndex + 1) * E.pageSize > c.file.currFileSizeOnDisk then
            (c.file.buf.bufferIndex + 1) * E.pageSize else c.file.currFileSizeOnDisk) = fd.data.length
        rw [hdata, hfull, if_pos]
        have := E.pageSize_pos
        rw [hcurr, Nat.add_mul]
        omega
      · intro b' hb'
        obtain rfl : page = b' := Option.some.inj hb'
        exact hpagelen
      · exact fun _ => ⟨hdata, Or.inr (by rw [hfull, Nat.mul_mod_left])⟩
      · exact fun hd => absurd hd (by simp)
    obtain ⟨f', hload, hst, -, -, hoff', hidx', hun'⟩ := appendState_load hE hnext rfl
    refine ⟨(c.advance d n).atPageStart f', ?_, ⟨hst, ?_, ?_, E.pageSize_pos, hwb, ?_⟩⟩
    · rw [if_pos hend, hsync]
      show (nextPage E _).map _ = _
      rw [nextPage, hload]
      rfl
    · exact hoff'.trans hoff
    · show f'.buf.bufferIndex * E.pageSize + 0 = _
      rw [hidx', hfull, Nat.add_zero, ← hd]
      rfl
    · intro hun''
      rw [← hd] at hun'
      exact absurd (hun.symm.trans (hun'.symm.trans hun'')) (by simp)
  · -- The task ends inside the page, which is now dirty.
    refine ⟨c.advance d n, ?_, ⟨⟨?_, ?_, ?_, ?_, ?_, ?_, ?_⟩, hoff, ?_, ?_, hwb, ?_⟩⟩
    · rw [if_neg hend, if_neg (by omega)]
    · rw [← hd]; exact h.state.oflag
    · rw [← hd]; exact h.state.append
    · rw [← hd]; exact hgrown.trans hlen'.symm
    · rw [← hd]; exact h.state.curr
    · intro b' hb'
      rw [← hd] at hb'
      obtain rfl : page = b' := Option.some.inj hb'
      exact hpagelen
    · intro hd'
      rw [← hd] at hd'
      exact absurd hd' (by simp [Cursor.advance, dirtied])
    · intro _
      subst hd
      refine ⟨hun, hidx, hoff, ⟨page, rfl, ?_⟩, ?_⟩
      · show content ++ chunk E w c
          = c.file.fd.data ++ page.take ((content ++ chunk E w c).length - c.file.fd.data.length)
        rw [hlen', show content.length + n - c.file.fd.data.length = c.pageOffset + n by omega]
        exact hcontent'
      · show (content ++ chunk E w c).length < c.file.fd.data.length + E.pageSize
        omega
    · rw [← hd]
      show c.file.buf.bufferIndex * E.pageSize + (c.pageOffset + n) = _
      omega
    · show c.pageOffset + n < E.pageSize
      omega
    · intro _
      left
      show c.remainingBytes - n = 0
      omega

/-- One pass of the loop: the next chunk of the task joins the content. -/
theorem transferStep_append (hE : E.Reliable) {w : WriteTask} {c : Cursor}
    {content : List UInt8} (h : AppendCursor E w c content) (hrem : 0 < c.remainingBytes) :
    ∃ c', transferStep E w c = .ok c' ∧
      AppendCursor E w c' (content ++ chunk E w c) := by
  -- The buffer test at the head of the loop keeps the cursor invariant.
  obtain ⟨f, hload, hcur, hsome⟩ : ∃ f,
      ensureBuffer E c.file = .ok f ∧ AppendCursor E w { c with file := f } content ∧
      (f.blockWriteUnaligned = false → f.buf.buffer.isSome) := by
    unfold ensureBuffer
    by_cases hnone : c.file.buf.buffer = none ∧ c.file.buf.isDirty = false
    · obtain ⟨f, hload, hst, hsome, -, hoff, hidx, hun⟩ := appendState_load hE h.state hnone.2
      refine ⟨f, by rw [if_pos hnone, hload], ⟨hst, hoff.trans h.offset, ?_, h.inPage, h.wbPos, ?_⟩,
        fun _ => hsome⟩
      · show f.buf.bufferIndex * E.pageSize + c.pageOffset = content.length
        rw [hidx, h.page]
      · intro hun'
        exact h.direct (hun.symm.trans hun')
    · refine ⟨c.file, if_neg hnone, h, fun _ => ?_⟩
      cases hd : c.file.buf.isDirty with
      | false =>
        rw [Option.isSome_iff_ne_none]
        exact fun hn => hnone ⟨hn, hd⟩
      | true =>
        obtain ⟨b, hb, -⟩ := (h.state.dirty hd).tail
        rw [hb, Option.isSome_some]
  rw [transferStep, hload]
  show ∃ c', (if f.blockWriteUnaligned then _ else _) = Except.ok c' ∧ _
  cases hun : f.blockWriteUnaligned with
  | true =>
    rw [if_pos rfl]
    exact unalignedTransfer_append hE hcur hun hrem
  | false =>
    rw [if_neg (by simp)]
    exact bufferedTransfer_append hE hcur hun (hsome hun)

/-- The whole loop: the rest of the task joins the content. -/
theorem transferLoop_append (hE : E.Reliable) {w : WriteTask} {c : Cursor}
    {content : List UInt8} (h : AppendCursor E w c content) {fuel : Nat}
    (hfuel : c.remainingBytes ≤ fuel) :
    ∃ c', transferLoop E w fuel c = .ok c' ∧
      AppendCursor E w c' (content ++ w.buf.drop c.wbPos) := by
  obtain ⟨c', hloop, ⟨content', hcur, htotal⟩, h0⟩ := transferLoop_rule
    (I := fun c' => ∃ content', AppendCursor E w c' content' ∧
      content' ++ w.buf.drop c'.wbPos = content ++ w.buf.drop c.wbPos)
    (fun c' hc => hc.choose_spec.1.inPage)
    (fun c₁ ⟨content₁, hcur, htotal⟩ hrem => by
      obtain ⟨c₂, hpass, hcur₂⟩ := transferStep_append hE hcur hrem
      refine ⟨c₂, hpass, _, hcur₂, ?_⟩
      rw [List.append_assoc, chunk_append_drop (transferStep_moved hpass), htotal])
    fuel c ⟨content, h, rfl⟩ hfuel
  rw [drop_wbPos_eq_nil hcur.wbPos h0, List.append_nil] at htotal
  exact ⟨c', hloop, htotal ▸ hcur⟩

/-- The start position: a clean file moves to its end, a dirty one is
there already. -/
theorem appendPosition_append {f : EfFile} {content : List UInt8}
    (h : AppendState E f content) :
    ∃ f', appendPosition E f = .ok f' ∧ AppendState E f' content ∧
      f'.fileOffset = content.length ∧
      f'.buf.bufferIndex = content.length / E.pageSize := by
  unfold appendPosition
  rw [if_neg (by simpa using h.oflag)]
  cases hd : f.buf.isDirty with
  | false =>
    obtain ⟨hdata, hmode⟩ := h.clean hd
    rw [if_pos rfl]
    refine ⟨_, rfl, ⟨h.oflag, h.append, h.running, h.curr, ?_, fun _ => ⟨hdata, hmode⟩, ?_⟩, ?_, ?_⟩
    · intro b hb
      by_cases hidx : f.buf.bufferIndex ≠ f.fd.lseekEnd / E.pageSize
      · simp [hidx] at hb
      · exact h.bufLen b (by simpa [hidx] using hb)
    · exact fun hd' => absurd hd' (by simp [hd])
    · rw [← hdata]
      rfl
    · rw [← hdata]
      rfl
  | true =>
    have hdirty := h.dirty hd
    have hidx := hdirty.index
    have hindex : f.buf.bufferIndex = content.length / E.pageSize := by
      obtain ⟨b, -, hcontent⟩ := hdirty.tail
      have hle : f.fd.data.length ≤ content.length := by
        rw [hcontent, List.length_append]
        omega
      have hin := hdirty.inPage
      symm
      rw [Nat.div_eq_iff E.pageSize_pos]
      omega
    refine ⟨f, ?_, h, hdirty.offset, hindex⟩
    rw [if_neg (by simp), if_neg]
    rw [h.curr, ← hidx, Nat.mul_div_cancel _ E.pageSize_pos]
    simp

/-- The loop starts at the end of the content. -/
theorem AppendState.cursor {f : EfFile} {content : List UInt8} (h : AppendState E f content)
    (hoff : f.fileOffset = content.length) (hidx : f.buf.bufferIndex = content.length / E.pageSize)
    (w : WriteTask) : AppendCursor E w (startCursor E f w) content := by
  have hdiv := Nat.div_add_mod' content.length E.pageSize
  have hmod := Nat.mod_lt content.length E.pageSize_pos
  refine ⟨h, hoff, ?_, ?_, Nat.zero_add _, fun _ => Or.inr rfl⟩
  · show f.buf.bufferIndex * E.pageSize + (f.fileOffset - f.buf.bufferIndex * E.pageSize) = _
    rw [hoff, hidx]
    omega
  · show f.fileOffset - f.buf.bufferIndex * E.pageSize < E.pageSize
    rw [hoff, hidx]
    omega

/-- The loop leaves a file. -/
theorem AppendCursor.appendFile {w : WriteTask} {c : Cursor} {content : List UInt8}
    (h : AppendCursor E w c content) : AppendFile E c.file content := by
  refine ⟨h.state, ?_⟩
  rw [h.offset, ← h.page]
  exact Nat.add_lt_add_left h.inPage _

/-- `ef_one_single_write` on an append file appends the task. -/
theorem efOneSingleWrite_append (hE : E.Reliable) {f : EfFile} {content : List UInt8}
    (h : AppendState E f content) (w : WriteTask) :
    ∃ f' n, efOneSingleWrite E f w = .ok (f', n) ∧ AppendFile E f' (content ++ w.buf) := by
  obtain ⟨f₁, hpos, hst, hoff, hidx⟩ := appendPosition_append h
  obtain ⟨c, hloop, hcur⟩ :=
    transferLoop_append hE (hst.cursor hoff hidx w) (Nat.le_refl w.nbyte)
  exact ⟨c.file, c.bytesTransfered, efOneSingleWrite_eq_ok.mpr ⟨f₁, c, hpos, hloop, rfl, rfl⟩,
    hcur.appendFile⟩

/-- `sync_buf_to_file` on an append file brings everything to the disk. A
file that was clean stays as it is. -/
theorem syncBufToFile_append (hE : E.Reliable) {f : EfFile} {content : List UInt8}
    (h : AppendState E f content) :
    ∃ fd, syncBufToFile E f = .ok { f with fd := fd, buf := { f.buf with isDirty := false } } ∧
      fd.data = content ∧ fd.append = true := by
  cases hd : f.buf.isDirty with
  | false =>
    refine ⟨f.fd, ?_, (h.clean hd).1, h.append⟩
    rw [syncBufToFile_of_clean f hd, ← hd]
  | true =>
    have hdirty := h.dirty hd
    obtain ⟨b, hb, hcontent⟩ := hdirty.tail
    obtain ⟨fd, hsync, hfd, happend⟩ := syncBufToFile_eq hE f b hd hb
    refine ⟨fd, hsync, ?_, happend.trans h.append⟩
    have hblen := h.bufLen b hb
    have hin := hdirty.inPage
    have hle : f.fd.data.length ≤ content.length := by
      rw [hcontent, List.length_append]
      omega
    -- The page is appended whole and cut behind `content`.
    rw [hfd, store_of_append h.append, h.running, resize_eq_take (by rw [List.length_append]; omega),
      List.take_append, List.take_of_length_le hle]
    exact hcontent.symm

/-- `ef_file_fsync` on an append file brings everything to the disk and
goes back to direct writes. -/
theorem efFileFsync_append (hE : E.Reliable) {f : EfFile} {content : List UInt8}
    (h : AppendFile E f content) :
    ∃ f', efFileFsync E f = .ok f' ∧ AppendFile E f' content ∧ f'.fd.data = content := by
  obtain ⟨fd, hsync, hfd, happend⟩ := syncBufToFile_append hE h.toAppendState
  have hin := h.inPage
  refine ⟨{ f with
    currFileSizeOnDisk := f.runningFileSize
    blockWriteUnaligned := true
    buf := { f.buf with isDirty := false }
    fd := { fd with direct := false } }, ?_, ⟨⟨h.oflag, happend, h.running, ?_, h.bufLen, ?_, ?_⟩, hin⟩,
    hfd⟩
  · rw [efFileFsync, hsync]
    show (if f.fileOffset - f.buf.bufferIndex * E.pageSize = E.pageSize then _ else _) = _
    have hpos := E.pageSize_pos
    rw [if_neg (by omega)]
    show (if f.oflag.has O_APPEND then _ else _) = _
    rw [if_pos h.oflag]
    rfl
  · rw [hfd]
    exact h.running
  · exact fun _ => ⟨hfd, Or.inl rfl⟩
  · exact fun hd => absurd hd (by simp)

end Efio.Proofs.Evio
