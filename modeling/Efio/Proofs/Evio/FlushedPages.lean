import Efio.Proofs.Evio.DiskContent
import Efio.Proofs.Evio.EngineFrame

/-!
# `Efio.Proofs.Evio.FlushedPages`: write tasks without an `fsync`

As long as only write tasks are executed, the page under the offset is in
memory, and the disk file has the pages before it. `AppendMode` and
`Untouched` are what the engines keep in addition: when an append file is
written directly, and that the disk file is the old one from the current
page on. Both are kept by one pass of the loop (`Pass`).

`execTasks_flushedPages` is the result for every file that is open for
writing, and `onDisk_iff` says when the disk file contains the whole stream
nevertheless.
-/

set_option autoImplicit false

namespace Efio.Proofs.Evio

open Efio.Lib
open Efio.Evio
open Efio.Spec

variable {E : Env} {w : WriteTask} {c c' : Cursor} {f : EfFile}

/-! ### `O_APPEND` -/

/-- An append file that was opened at `start` is written directly up to the
end of the page of `start`. -/
structure AppendMode (E : Env) (start : Nat) (f : EfFile) (content : List UInt8) : Prop where
  le : start ≤ content.length
  mode : f.blockWriteUnaligned = true ↔
    start % E.pageSize ≠ 0 ∧ content.length < (start / E.pageSize + 1) * E.pageSize
  clean : f.blockWriteUnaligned = true → f.buf.isDirty = false

theorem AppendMode.pass {start : Nat} {content : List UInt8} (h : AppendMode E start c.file content)
    (hcur : AppendCursor E w c content)
    (hpass : Pass E c c' (min c.remainingBytes (E.pageSize - c.pageOffset))) :
    AppendMode E start c'.file (content ++ chunk E w c) := by
  have hlen := length_chunk (E := E) w c hcur.wbPos
  have hle := h.le
  refine ⟨?_, ?_, ?_⟩
  · rw [List.length_append]
    omega
  · rw [hpass.direct, List.length_append, hlen]
    cases hun : c.file.blockWriteUnaligned with
    | true =>
      obtain ⟨hmod, hlt⟩ := h.mode.mp hun
      have hpage := hcur.page
      have hin := hcur.inPage
      rw [Nat.succ_mul] at hlt ⊢
      -- The current page is the one of `start`.
      have hindex : c.file.buf.bufferIndex = start / E.pageSize := by
        have hdiv := Nat.div_add_mod' start E.pageSize
        have hcurrent : content.length / E.pageSize = c.file.buf.bufferIndex :=
          Nat.div_eq_of_lt_le (by omega) (by rw [Nat.succ_mul]; omega)
        rw [← hcurrent]
        exact Nat.div_eq_of_lt_le (by omega) (by rw [Nat.succ_mul]; exact hlt)
      rw [hindex] at hpage
      simp only [Bool.true_and, decide_eq_true_eq]
      omega
    | false =>
      have hnot : ¬ (start % E.pageSize ≠ 0 ∧
          content.length < (start / E.pageSize + 1) * E.pageSize) := by
        rw [← h.mode, hun]
        exact Bool.false_ne_true
      simp only [Bool.false_and, Bool.false_eq_true, false_iff]
      intro hmode
      exact hnot ⟨hmode.1, by omega⟩
  · intro hun
    rw [hpass.direct, Bool.and_eq_true] at hun
    exact hpass.clean hun.1 (h.clean hun.1)

/-- A write task on an append file. -/
theorem execTask_appendMode (hE : E.Reliable) {start : Nat} {content : List UInt8}
    (h : AppendFile E f content) (hmode : AppendMode E start f content)
    (hcmd : w.cmd = .fileWriteEvt) :
    ∃ f' n, execTask E f w = .ok (f', n) ∧ AppendFile E f' (content ++ w.buf) ∧
      AppendMode E start f' (content ++ w.buf) := by
  obtain ⟨f₁, hpos, hst, hoff, hidx⟩ := appendPosition_append h.clearErrno.toAppendState
  have hmode₁ : AppendMode E start f₁ content := by
    obtain ⟨offset, index, buffer, rfl⟩ := appendPosition_frame hpos
    exact ⟨hmode.le, hmode.mode, hmode.clean⟩
  obtain ⟨c', hloop, ⟨content', hcur, hm, htotal⟩, h0⟩ := transferLoop_rule (E := E) (w := w)
    (I := fun c => ∃ content', AppendCursor E w c content' ∧ AppendMode E start c.file content' ∧
      content' ++ w.buf.drop c.wbPos = content ++ w.buf)
    (fun c hc => hc.choose_spec.1.inPage)
    (fun c ⟨content', hcur, hm, htotal⟩ hrem => by
      obtain ⟨c₂, hpass, hcur₂⟩ := transferStep_append hE hcur hrem
      refine ⟨c₂, hpass, _, hcur₂, hm.pass hcur (transferStep_pass hpass), ?_⟩
      rw [List.append_assoc, chunk_append_drop (transferStep_moved hpass), htotal])
    w.nbyte (startCursor E f₁ w) ⟨content, hst.cursor hoff hidx w, hmode₁, rfl⟩ (Nat.le_refl _)
  rw [drop_wbPos_eq_nil hcur.wbPos h0, List.append_nil] at htotal
  subst htotal
  refine ⟨c'.file, c'.bytesTransfered, ?_, hcur.appendFile, hm⟩
  rw [execTask_write f hcmd]
  exact efOneSingleWrite_eq_ok.mpr ⟨f₁, c', hpos, hloop, rfl, rfl⟩

/-- The disk file is the content up to `flushedEnd`. -/
theorem AppendMode.disk {oflag : OFlag} {start : Nat} {content : List UInt8}
    (hmode : AppendMode E start f content) (h : AppendFile E f content)
    (happend : oflag.has O_APPEND) :
    f.fd.data = content.take (flushedEnd E oflag start content.length) := by
  have hdirect : f.blockWriteUnaligned = true ↔ WritesDirectly E oflag start content.length := by
    rw [hmode.mode]
    exact ⟨fun hm => ⟨happend, hm⟩, fun hd => hd.2⟩
  have hdiv := Nat.div_add_mod' content.length E.pageSize
  unfold flushedEnd
  cases hun : f.blockWriteUnaligned with
  | true =>
    rw [if_pos (hdirect.mp hun), List.take_length]
    exact (h.clean (hmode.clean hun)).1
  | false =>
    rw [if_neg fun hd => Bool.false_ne_true (hun.symm.trans (hdirect.mpr hd))]
    cases hd : f.buf.isDirty with
    | false =>
      obtain ⟨hdata, haligned⟩ := h.clean hd
      have hmod := haligned.resolve_left (by rw [hun]; exact Bool.false_ne_true)
      rw [List.take_of_length_le (by omega)]
      exact hdata
    | true =>
      have hdirty := h.dirty hd
      obtain ⟨b, -, hcontent⟩ := hdirty.tail
      have hle : f.fd.data.length ≤ content.length := by
        rw [hcontent, List.length_append]
        omega
      have hin := hdirty.inPage
      have hwhole : content.length / E.pageSize * E.pageSize = f.fd.data.length := by
        have hindex : content.length / E.pageSize = f.buf.bufferIndex := by
          refine Nat.div_eq_of_lt_le ?_ ?_
          · rw [hdirty.index]
            exact hle
          · rw [Nat.succ_mul, hdirty.index]
            exact hin
        rw [hindex, hdirty.index]
      rw [hwhole]
      conv => rhs; rw [hcontent]
      rw [List.take_left]

/-! ### Without `O_APPEND` -/

/-- From the current page on the disk file is the old one. -/
def Untouched (E : Env) (init : List UInt8) (f : EfFile) : Prop :=
  ∀ p, f.buf.bufferIndex * E.pageSize ≤ p → f.fd.data[p]? = init[p]?

theorem Untouched.pass {init : List UInt8} {n : Nat} (h : Untouched E init c.file)
    (hpass : Pass E c c' n) (haligned : c.file.blockWriteUnaligned = false)
    (hturned : c.pageOffset + n = E.pageSize → Untouched E init c'.file) :
    Untouched E init c'.file := by
  by_cases hend : c.pageOffset + n = E.pageSize
  · exact hturned hend
  · obtain ⟨hdata, hindex⟩ := hpass.inside haligned hend
    intro p hp
    rw [hindex] at hp
    rw [hdata]
    exact h p hp

/-- Behind the offset the content is the old file. -/
structure Unreached (E : Env) (init : List UInt8) (f : EfFile) (content : List UInt8) : Prop where
  untouched : Untouched E init f
  old : ∀ p, f.fileOffset ≤ p → content[p]? = init[p]?

theorem Unreached.pass {init content : List UInt8} (h : Unreached E init c.file content)
    (hcur : OverwriteCursor E w c content)
    (hcur' : OverwriteCursor E w c' (writeAt content c.file.fileOffset (chunk E w c)))
    (hoff : c'.file.fileOffset = c.file.fileOffset + (chunk E w c).length)
    (hpass : Pass E c c' (min c.remainingBytes (E.pageSize - c.pageOffset))) :
    Unreached E init c'.file (writeAt content c.file.fileOffset (chunk E w c)) := by
  have hlen := length_chunk (E := E) w c hcur.wbPos
  have hold : ∀ p, c'.file.fileOffset ≤ p →
      (writeAt content c.file.fileOffset (chunk E w c))[p]? = init[p]? := by
    intro p hp
    rw [hoff] at hp
    rw [getElem?_writeAt_of_ge content hp]
    exact h.old p (by omega)
  refine ⟨h.untouched.pass hpass hcur.flags.aligned fun hend p hp => ?_, hold⟩
  -- A new page: the file is clean, and the offset at the start of the page.
  obtain ⟨hclean, hindex, -⟩ := hpass.turned hend
  rw [hcur'.state.clean hclean]
  refine hold p ?_
  have hpage := hcur.page
  rw [hindex, Nat.succ_mul] at hp
  omega

/-- A write task on an `O_RDWR` file. -/
theorem execTask_unreached (hE : E.Reliable) {init content : List UInt8}
    (h : OverwriteFile E f content) (hun : Unreached E init f content)
    (hcmd : w.cmd = .fileWriteEvt) :
    ∃ f' n, execTask E f w = .ok (f', n) ∧ OverwriteFile E f' (writeAt content f.fileOffset w.buf) ∧
      f'.fileOffset = f.fileOffset + w.buf.length ∧
      Unreached E init f' (writeAt content f.fileOffset w.buf) := by
  have hclear := h.clearErrno
  obtain ⟨c', hloop, ⟨content', hcur, hu, htotal, hoff⟩, h0⟩ := transferLoop_rule (E := E) (w := w)
    (I := fun c => ∃ content', OverwriteCursor E w c content' ∧ Unreached E init c.file content' ∧
      writeAt content' c.file.fileOffset (w.buf.drop c.wbPos) = writeAt content f.fileOffset w.buf ∧
      c.file.fileOffset + c.remainingBytes = f.fileOffset + w.nbyte)
    (fun c hc => hc.choose_spec.1.inPage)
    (fun c ⟨content', hcur, hu, htotal, hoff⟩ hrem => by
      obtain ⟨c₂, hpass, hcur₂, hoff₂⟩ := transferStep_overwrite hE hcur
      have hmoved := transferStep_moved hpass
      have hlen := length_chunk (E := E) w c hcur.wbPos
      refine ⟨c₂, hpass, _, hcur₂, hu.pass hcur hcur₂ hoff₂ (transferStep_pass hpass), ?_, ?_⟩
      · rw [hoff₂, writeAt_writeAt_append _ _ hcur.state.offset_le, chunk_append_drop hmoved, htotal]
      · have := hmoved.2.1
        omega)
    w.nbyte _ ⟨content, hclear.cursor w, ⟨hun.untouched, hun.old⟩, rfl, rfl⟩ (Nat.le_refl _)
  rw [drop_wbPos_eq_nil hcur.wbPos h0, writeAt_nil_of_le hcur.state.offset_le] at htotal
  subst htotal
  have hpos : appendPosition E { f with fd := f.fd.clearErrno } = .ok _ := if_pos h.notAppend
  refine ⟨c'.file, c'.bytesTransfered, ?_, hcur.overwriteFile, ?_, hu⟩
  · rw [execTask_write f hcmd]
    exact efOneSingleWrite_eq_ok.mpr ⟨_, c', hpos, hloop, rfl, rfl⟩
  · show c'.file.fileOffset = f.fileOffset + w.nbyte
    omega

/-- A write task on a write-only file. -/
theorem execTask_untouched (hE : E.Reliable) {init total : List UInt8} {ws : List WriteTask}
    (h : WriteOnlyFile E init total f) (hun : Untouched E init f) (hcmd : w.cmd = .fileWriteEvt)
    (hstream : total.drop f.fileOffset = payload (w :: ws)) :
    ∃ f' n, execTask E f w = .ok (f', n) ∧ WriteOnlyFile E init total f' ∧ Untouched E init f' ∧
      total.drop f'.fileOffset = payload ws := by
  rw [payload_cons_write ws hcmd] at hstream
  obtain ⟨c', hloop, ⟨hcur, hu⟩, h0⟩ := transferLoop_rule (E := E) (w := w)
    (I := fun c => WriteOnlyCursor E init total w (payload ws) c ∧ Untouched E init c.file)
    (fun c hc => hc.1.inPage)
    (fun c ⟨hcur, hu⟩ hrem => by
      obtain ⟨c₂, hpass, hcur₂⟩ := transferStep_writeOnly hE hcur hrem
      refine ⟨c₂, hpass, hcur₂, hu.pass (transferStep_pass hpass) hcur.file.aligned fun hend p hp => ?_⟩
      -- A new page: no byte of it has been written.
      obtain ⟨-, -, hzero⟩ := (transferStep_pass hpass).turned hend
      have hpage := hcur₂.page
      rw [hzero, Nat.add_zero] at hpage
      exact (hcur₂.file.start hpage.symm).old p (hpage ▸ hp))
    w.nbyte _ ⟨h.clearErrno.cursor hstream, hun⟩ (Nat.le_refl _)
  have hpos : appendPosition E { f with fd := f.fd.clearErrno } = .ok _ := if_pos h.notAppend
  refine ⟨c'.file, c'.bytesTransfered, ?_, hcur.file, hu, ?_⟩
  · rw [execTask_write f hcmd]
    exact efOneSingleWrite_eq_ok.mpr ⟨_, c', hpos, hloop, rfl, rfl⟩
  · rw [hcur.stream, drop_wbPos_eq_nil hcur.wbPos h0, List.nil_append]

/-! ### Every file that is open for writing -/

theorem flushedEnd_of_not_append {oflag : OFlag} (happend : ¬ oflag.has O_APPEND) (start n : Nat) :
    flushedEnd E oflag start n = n / E.pageSize * E.pageSize := if_neg fun hd => happend hd.1

/-- The page of an offset. -/
theorem page_of_offset {n index : Nat} (hle : index * E.pageSize ≤ n)
    (hlt : n < index * E.pageSize + E.pageSize) : n / E.pageSize * E.pageSize = index * E.pageSize := by
  rw [Nat.div_eq_of_lt_le hle (by rw [Nat.succ_mul]; exact hlt)]

theorem efFileOpen_appendMode {oflag : OFlag} (happend : oflag.has O_APPEND)
    (hwrite : oflag.has (O_WRONLY ||| O_RDWR)) (init : List UInt8) :
    AppendMode E (openedData oflag init).length (efFileOpen E oflag init) (openedData oflag init) := by
  have hflag : openOflag oflag = oflag := by
    rw [openOflag, if_pos (OFlag.has_or.mpr (Or.inl (OFlag.has_or.mpr (Or.inl happend))))]
  obtain ⟨data, hdata⟩ : ∃ data, openedData oflag init = data := ⟨_, rfl⟩
  have hlt : data.length < (data.length / E.pageSize + 1) * E.pageSize := by
    rw [Nat.succ_mul]
    exact Nat.lt_div_mul_add E.pageSize_pos
  have hunaligned : (efFileOpen E oflag init).blockWriteUnaligned
      = decide (data.length % E.pageSize ≠ 0) := by
    unfold openedData at hdata
    simp only [efFileOpen, hflag, efFileInit, Descriptor.ofOpen, hdata, if_pos happend, openAppend,
      Descriptor.lseekEnd]
    by_cases hwo : oflag.has O_WRONLY
    · rw [if_pos hwo]
      by_cases hal : data.length % E.pageSize ≠ 0
      · rw [if_pos hal, decide_eq_true hal]
      · rw [if_neg hal, decide_eq_false hal]
    · rw [if_neg hwo, if_pos ((OFlag.has_or.mp hwrite).resolve_left hwo)]
      by_cases hal : data.length % E.pageSize ≠ 0
      · rw [if_pos hal, decide_eq_true hal]
      · rw [if_neg hal, decide_eq_false hal]
  rw [hdata]
  refine ⟨Nat.le_refl _, ?_, fun _ => (efFileOpen_frame oflag init).2⟩
  rw [hunaligned, decide_eq_true_eq]
  exact ⟨fun hal => ⟨hal, hlt⟩, fun h => h.1⟩

theorem le_flushedEnd {oflag : OFlag} (happend : oflag.has O_APPEND) {start n : Nat} (h : start ≤ n) :
    start ≤ flushedEnd E oflag start n := by
  unfold flushedEnd
  split
  · exact h
  · rename_i hnot
    have hdiv := Nat.div_add_mod' start E.pageSize
    by_cases hmod : start % E.pageSize = 0
    · have hle := Nat.mul_le_mul_right E.pageSize (Nat.div_le_div_right (c := E.pageSize) h)
      omega
    · have hpast : (start / E.pageSize + 1) * E.pageSize ≤ n :=
        Nat.not_lt.mp fun hlt => hnot ⟨happend, hmod, hlt⟩
      have hle := Nat.mul_le_mul_right E.pageSize
        ((Nat.le_div_iff_mul_le E.pageSize_pos).mpr hpast)
      have hlt := Nat.lt_div_mul_add (a := start) E.pageSize_pos
      rw [Nat.succ_mul] at hle
      omega

theorem flushedPages_append (hE : E.Reliable) {oflag : OFlag} (happend : oflag.has O_APPEND)
    (hwrite : oflag.has (O_WRONLY ||| O_RDWR)) (init : List UInt8) {ws : List WriteTask}
    (hws : ∀ w ∈ ws, w.cmd = .fileWriteEvt) :
    ∃ f, execTasks E (efFileOpen E oflag init) ws = .ok f ∧
      FlushedPages E oflag init (payload ws) f.fd.data := by
  obtain ⟨data, hdata⟩ : ∃ data, openedData oflag init = data := ⟨_, rfl⟩
  have hstart : writeStart oflag init = data.length := by
    rw [writeStart, if_pos happend, hdata]
  have hopen := efFileOpen_append (E := E) happend hwrite init
  have hmode₀ := efFileOpen_appendMode (E := E) happend hwrite init
  rw [hdata] at hopen hmode₀
  obtain ⟨f, hrun, -, content, hfile, hmode, hcontent⟩ := execTasks_rule (E := E)
    (I := fun rest f => (∀ w ∈ rest, w.cmd = .fileWriteEvt) ∧ ∃ content, AppendFile E f content ∧
      AppendMode E data.length f content ∧ content ++ payload rest = data ++ payload ws)
    (fun w rest f ⟨hrest, content, hfile, hmode, hcontent⟩ => by
      have hcmd := hrest w List.mem_cons_self
      obtain ⟨f', n, hexec, hfile', hmode'⟩ := execTask_appendMode hE hfile hmode hcmd
      refine ⟨f', n, hexec, fun v hv => hrest v (List.mem_cons_of_mem _ hv), _, hfile', hmode', ?_⟩
      rw [List.append_assoc, ← payload_cons_write rest hcmd]
      exact hcontent)
    ws (efFileOpen E oflag init) ⟨hws, data, hopen, hmode₀, rfl⟩
  have hnil : content = data ++ payload ws := (List.append_nil content).symm.trans hcontent
  have hdisk := hmode.disk hfile happend
  refine ⟨f, hrun, ?_, ?_⟩
  · intro i hi
    rw [hstart] at hi ⊢
    rw [hdisk, hnil, List.length_append, List.getElem?_take_of_lt hi,
      List.getElem?_append_right (Nat.le_add_right _ _), Nat.add_sub_cancel_left]
  · intro p hp
    rw [hstart] at hp
    have hle : data.length ≤ p :=
      Nat.le_trans (le_flushedEnd happend (Nat.le_add_right _ (payload ws).length)) hp
    rw [hdata, hdisk, hnil, List.length_append, List.getElem?_eq_none hle]
    refine List.getElem?_eq_none ?_
    rw [List.length_take]
    exact Nat.le_trans (Nat.min_le_left _ _) hp

theorem flushedPages_overwrite (hE : E.Reliable) {oflag : OFlag} (hread : oflag.has O_RDWR)
    (happend : ¬ oflag.has O_APPEND) (init : List UInt8) {ws : List WriteTask}
    (hws : ∀ w ∈ ws, w.cmd = .fileWriteEvt) :
    ∃ f, execTasks E (efFileOpen E oflag init) ws = .ok f ∧
      FlushedPages E oflag init (payload ws) f.fd.data := by
  obtain ⟨data, hdata⟩ : ∃ data, openedData oflag init = data := ⟨_, rfl⟩
  have hstart : writeStart oflag init = 0 := if_neg happend
  obtain ⟨hopen, hoff⟩ := efFileOpen_overwrite (E := E) hread happend init
  rw [hdata] at hopen
  have hold : Unreached E data (efFileOpen E oflag init) data := by
    have hclean := hopen.clean (efFileOpen_frame oflag init).2
    exact ⟨fun p _ => by rw [hclean], fun p _ => rfl⟩
  obtain ⟨f, hrun, -, content, hfile, hun, hlen, hcontent⟩ := execTasks_rule (E := E)
    (I := fun rest f => (∀ w ∈ rest, w.cmd = .fileWriteEvt) ∧ ∃ content, OverwriteFile E f content ∧
      Unreached E data f content ∧ f.fileOffset + (payload rest).length = (payload ws).length ∧
      writeAt content f.fileOffset (payload rest) = writeAt data 0 (payload ws))
    (fun w rest f ⟨hrest, content, hfile, hun, hlen, hcontent⟩ => by
      have hcmd := hrest w List.mem_cons_self
      obtain ⟨f', n, hexec, hfile', hoff', hun'⟩ := execTask_unreached hE hfile hun hcmd
      rw [payload_cons_write rest hcmd] at hlen hcontent
      refine ⟨f', n, hexec, fun v hv => hrest v (List.mem_cons_of_mem _ hv), _, hfile', hun', ?_, ?_⟩
      · rw [List.length_append] at hlen
        omega
      · rw [hoff', writeAt_writeAt_append _ _ hfile.offset_le]
        exact hcontent)
    ws (efFileOpen E oflag init) ⟨hws, data, hopen, hold, by rw [hoff, Nat.zero_add], by rw [hoff]⟩
  have hend : f.fileOffset = (payload ws).length := hlen
  have hstands : content = writeAt data 0 (payload ws) :=
    (writeAt_nil_of_le hfile.offset_le).symm.trans hcontent
  have hpage := page_of_offset hfile.index_le_offset hfile.offset_lt
  refine ⟨f, hrun, ?_, ?_⟩
  · intro i hi
    rw [hstart, flushedEnd_of_not_append happend, Nat.zero_add, Nat.zero_add, ← hend, hpage] at hi
    have hlt : i < (payload ws).length := by
      have hle := hfile.index_le_offset
      omega
    rw [hstart, Nat.zero_add, ← hfile.outside i (Or.inl hi), hstands,
      getElem?_writeAt_mid data (Nat.zero_le i) (by omega), Nat.sub_zero]
  · intro p hp
    rw [hstart, flushedEnd_of_not_append happend, Nat.zero_add, ← hend, hpage] at hp
    rw [hdata]
    exact hun.untouched p hp

theorem flushedPages_writeOnly (hE : E.Reliable) {oflag : OFlag} (hwrite : oflag.has O_WRONLY)
    (hread : ¬ oflag.has O_RDWR) (happend : ¬ oflag.has O_APPEND) (init : List UInt8)
    {ws : List WriteTask} (hws : ∀ w ∈ ws, w.cmd = .fileWriteEvt) :
    ∃ f, execTasks E (efFileOpen E oflag init) ws = .ok f ∧
      FlushedPages E oflag init (payload ws) f.fd.data := by
  obtain ⟨total, htotal⟩ : ∃ total, payload ws = total := ⟨_, rfl⟩
  obtain ⟨data, hdata⟩ : ∃ data, openedData oflag init = data := ⟨_, rfl⟩
  have hstart : writeStart oflag init = 0 := if_neg happend
  obtain ⟨hopen, hoff⟩ := efFileOpen_writeOnly (E := E) hwrite hread happend init total
  rw [hdata] at hopen
  have hpage₀ : (efFileOpen E oflag init).buf.bufferIndex * E.pageSize = 0 := by
    have hle := hopen.index_le_offset
    omega
  have hold : Untouched E data (efFileOpen E oflag init) := by
    intro p hp
    exact (hopen.start (by rw [hoff, hpage₀])).old p (by rw [hoff]; exact Nat.zero_le p)
  obtain ⟨f, hrun, -, hfile, hun, hstream⟩ := execTasks_rule (E := E)
    (I := fun rest f => (∀ w ∈ rest, w.cmd = .fileWriteEvt) ∧ WriteOnlyFile E data total f ∧
      Untouched E data f ∧ total.drop f.fileOffset = payload rest)
    (fun w rest f ⟨hrest, hfile, hun, hstream⟩ => by
      have hcmd := hrest w List.mem_cons_self
      obtain ⟨f', n, hexec, hfile', hun', hstream'⟩ := execTask_untouched hE hfile hun hcmd hstream
      exact ⟨f', n, hexec, fun v hv => hrest v (List.mem_cons_of_mem _ hv), hfile', hun', hstream'⟩)
    ws (efFileOpen E oflag init) ⟨hws, hopen, hold, by rw [hoff, htotal]; rfl⟩
  have hend : f.fileOffset = total.length :=
    Nat.le_antisymm hfile.offset_le (List.drop_eq_nil_iff.mp hstream)
  have hpage := page_of_offset hfile.index_le_offset hfile.offset_lt
  rw [htotal]
  refine ⟨f, hrun, ?_, ?_⟩
  · intro i hi
    rw [hstart, flushedEnd_of_not_append happend, Nat.zero_add, Nat.zero_add, ← hend, hpage] at hi
    have hlt : i < f.fileOffset := Nat.lt_of_lt_of_le hi hfile.index_le_offset
    rw [hstart, Nat.zero_add]
    by_cases hpageStart : f.fileOffset = f.buf.bufferIndex * E.pageSize
    · exact (hfile.start hpageStart).written i hlt
    · obtain ⟨-, content, himage, hcov, -⟩ := hfile.mid hpageStart
      rw [← himage.outside i (Or.inl hi)]
      exact hcov.written i hlt
  · intro p hp
    rw [hstart, flushedEnd_of_not_append happend, Nat.zero_add, ← hend, hpage] at hp
    rw [hdata]
    exact hun p hp

/-- Write tasks alone bring the stream to the disk up to `flushedEnd`. -/
theorem execTasks_flushedPages (hE : E.Reliable) {oflag : OFlag}
    (hwritable : oflag.has (O_RDWR ||| O_WRONLY)) (init : List UInt8) {ws : List WriteTask}
    (hws : ∀ w ∈ ws, w.cmd = .fileWriteEvt) :
    ∃ f, execTasks E (efFileOpen E oflag init) ws = .ok f ∧
      FlushedPages E oflag init (payload ws) f.fd.data := by
  by_cases happend : oflag.has O_APPEND
  · have hwrite : oflag.has (O_WRONLY ||| O_RDWR) :=
      OFlag.has_or.mpr (OFlag.has_or.mp hwritable).symm
    exact flushedPages_append hE happend hwrite init hws
  · by_cases hread : oflag.has O_RDWR
    · exact flushedPages_overwrite hE hread happend init hws
    · have hwrite := (OFlag.has_or.mp hwritable).resolve_left hread
      exact flushedPages_writeOnly hE hwrite hread happend init hws

/-! ### When the whole stream is on disk -/

theorem flushedEnd_mono {oflag : OFlag} {start n m : Nat} (h : n ≤ m) :
    flushedEnd E oflag start n ≤ flushedEnd E oflag start m := by
  have hpages := Nat.mul_le_mul_right E.pageSize (Nat.div_le_div_right (c := E.pageSize) h)
  have hle : n / E.pageSize * E.pageSize ≤ n := Nat.div_mul_le_self n E.pageSize
  unfold flushedEnd
  by_cases hm : WritesDirectly E oflag start m
  · rw [if_pos hm]
    split
    · exact h
    · exact Nat.le_trans hle h
  · rw [if_neg hm]
    split
    · rename_i hn
      -- The page of `start` was left between `n` and `m`.
      have hpast : (start / E.pageSize + 1) * E.pageSize ≤ m :=
        Nat.not_lt.mp fun hlt => hm ⟨hn.1, hn.2.1, hlt⟩
      have hwhole := Nat.mul_le_mul_right E.pageSize
        ((Nat.le_div_iff_mul_le E.pageSize_pos).mpr hpast)
      exact Nat.le_trans (Nat.le_of_lt hn.2.2) hwhole
    · exact hpages

/-- More tasks may have been executed behind the stream. -/
theorem onDisk_of_restAgrees {oflag : OFlag} {init total more data : List UInt8}
    (h : FlushedPages E oflag init (total ++ more) data) (hrest : RestAgrees E oflag init total) :
    OnDisk oflag init total data := by
  intro i hi
  have hget : (total ++ more)[i]? = total[i]? := List.getElem?_append_left hi
  by_cases hlt : writeStart oflag init + i < flushedEnd E oflag (writeStart oflag init)
      (writeStart oflag init + (total ++ more).length)
  · rw [h.written i hlt, hget]
  · have hge := Nat.not_lt.mp hlt
    rw [h.old _ hge]
    refine hrest i hi (Nat.le_trans (flushedEnd_mono ?_) hge)
    rw [List.length_append]
    omega

theorem onDisk_iff {oflag : OFlag} {init total data : List UInt8}
    (h : FlushedPages E oflag init total data) :
    OnDisk oflag init total data ↔ RestAgrees E oflag init total := by
  constructor
  · intro hdisk i hi hge
    rw [← h.old _ hge]
    exact hdisk i hi
  · intro hrest
    have h' : FlushedPages E oflag init (total ++ []) data := by rwa [List.append_nil]
    exact onDisk_of_restAgrees h' hrest

end Efio.Proofs.Evio
