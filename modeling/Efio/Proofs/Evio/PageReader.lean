import Efio.Evio.Pipeline
import Efio.Proofs.Evio.OverwriteEngine

/-!
# `Efio.Proofs.Evio.PageReader`: reading from the page buffer

The end of `low_ef_read` and the `pread` of `ef_file_read`, on a file whose
page is clean (`PagedFile`).

* `readTransfer_paged`: from the right page offset the copy returns the
  bytes of the content at the file offset, and moves the offset behind
  them;
* `readJobStep_load`: the page that `ef_file_read` loads belongs to the
  content.
-/

set_option autoImplicit false

namespace Efio.Proofs.Evio

open Efio.Lib
open Efio.Evio
open Efio.Evio.PipelineState

variable {E : Env} {f : EfFile} {content : List UInt8}

/-- `page_offset` of `low_ef_read`. -/
def pageOffset (E : Env) (f : EfFile) : Int := f.fileOffset - f.buf.bufferIndex * E.pageSize

/-- What a reader leaves of the flags of a file. -/
structure SameMode (f f' : EfFile) : Prop where
  oflag : f'.oflag = f.oflag
  append : f'.fd.append = f.fd.append
  unaligned : f'.blockWriteUnaligned = f.blockWriteUnaligned

theorem PagedFile.disk (h : PagedFile E f content) (hclean : f.buf.isDirty = false) :
    f.fd.data = content ∧ f.currFileSizeOnDisk = content.length := by
  have hdata := h.clean hclean
  exact ⟨hdata, by rw [h.curr, hdata]⟩

/-- The bytes `low_ef_read` copies for a request of `nbyte`: up to the end
of the page and of the file. -/
def readSize (E : Env) (f : EfFile) (content : List UInt8) (nbyte : Nat) : Nat :=
  min (min nbyte (f.buf.bufferIndex * E.pageSize + E.pageSize - f.fileOffset))
    (content.length - f.fileOffset)

/-- The copy from a clean page. -/
theorem readTransfer_paged (h : PagedFile E f content) (hclean : f.buf.isDirty = false)
    {b : List UInt8} (hb : f.buf.buffer = some b) (nbyte : Nat) :
    ∃ f', readTransfer E f b nbyte (pageOffset E f)
        = .ok (f', (readSize E f content nbyte : Int), none,
            (content.drop f.fileOffset).take (readSize E f content nbyte)) ∧
      PagedFile E f' content ∧ f'.buf.isDirty = false ∧ SameMode f f' ∧
      f'.fileOffset = f.fileOffset + readSize E f content nbyte := by
  have hidx := h.index_le_offset
  have hlt := h.offset_lt
  have hoff := h.offset_le
  obtain ⟨hdata, hcurr⟩ := h.disk hclean
  obtain ⟨po, hpo⟩ : ∃ po, f.fileOffset = f.buf.bufferIndex * E.pageSize + po :=
    ⟨_, (Nat.add_sub_of_le hidx).symm⟩
  have hint : pageOffset E f = po := by
    unfold pageOffset
    rw [hpo]
    push_cast
    omega
  obtain ⟨n, hn⟩ : ∃ n, readSize E f content nbyte = n := ⟨_, rfl⟩
  -- The three clips of the code are `readSize`.
  have hsize : (if f.fileOffset + (if nbyte ≤ E.pageSize - po then nbyte else E.pageSize - po)
        > f.currFileSizeOnDisk then
      (if nbyte ≤ E.pageSize - po then nbyte else E.pageSize - po)
        - (f.fileOffset + (if nbyte ≤ E.pageSize - po then nbyte else E.pageSize - po)
          - f.currFileSizeOnDisk)
      else (if nbyte ≤ E.pageSize - po then nbyte else E.pageSize - po)) = n := by
    rw [← hn, readSize, hcurr]
    split <;> split <;> omega
  have hnpage : po + n ≤ E.pageSize := by
    rw [← hn, readSize]
    omega
  have hnend : f.fileOffset + n ≤ content.length := by
    rw [← hn, readSize]
    omega
  have hbytes : (b.drop po).take n = (content.drop f.fileOffset).take n := by
    apply List.ext_getElem?
    intro i
    rcases Nat.lt_or_ge i n with hi | hi
    · rw [List.getElem?_take_of_lt hi, List.getElem?_take_of_lt hi, List.getElem?_drop,
        List.getElem?_drop, ← (h.page b hb).2 (po + i) (by omega) (by omega), hpo, Nat.add_assoc]
    · rw [List.getElem?_eq_none (by rw [List.length_take]; omega),
        List.getElem?_eq_none (by rw [List.length_take]; omega)]
  have hstart : readTransfer E f b nbyte (pageOffset E f)
      = if po + n = E.pageSize then
          .ok ({ f with
            fileOffset := f.fileOffset + n
            buf := { f.buf with bufferIndex := f.buf.bufferIndex + 1, buffer := none } },
            n, none, (b.drop po).take n)
        else if po + n > E.pageSize then .error (.evAbort "Should have never reached here\n")
        else .ok ({ f with fileOffset := f.fileOffset + n }, n, none, (b.drop po).take n) := by
    have hlt' : po < E.pageSize := by omega
    rw [hint, readTransfer, if_neg (by omega), if_neg (by omega), if_neg (by omega)]
    simp only [Int.toNat_natCast]
    rw [hsize]
  rw [hstart, hn, hbytes]
  by_cases hend : po + n = E.pageSize
  · rw [if_pos hend]
    refine ⟨_, rfl, ⟨⟨⟨h.running, h.curr, hnend, nofun, fun p _ => ?_, ?_, h.disk_le, ?_⟩, h.clean,
      fun hd => ?_⟩, ?_, ?_, fun _ => ?_⟩, hclean, ⟨rfl, rfl, rfl⟩, rfl⟩
    · show content[p]? = f.fd.data[p]?
      rw [hdata]
    · show (f.buf.bufferIndex + 1) * E.pageSize ≤ f.fd.data.length
      rw [hdata, Nat.add_mul]
      omega
    · show content.length ≤ max f.fd.data.length _
      rw [hdata]
      exact Nat.le_max_left _ _
    · cases hclean.symm.trans hd
    · show (f.buf.bufferIndex + 1) * E.pageSize ≤ f.fileOffset + n
      rw [Nat.add_mul]
      omega
    · show f.fileOffset + n < (f.buf.bufferIndex + 1) * E.pageSize + E.pageSize
      rw [Nat.add_mul]
      omega
    · show f.fileOffset + n = (f.buf.bufferIndex + 1) * E.pageSize
      rw [Nat.add_mul]
      omega
  · rw [if_neg hend, if_neg (by omega)]
    refine ⟨_, rfl, ⟨⟨⟨h.running, h.curr, hnend, h.page, h.outside, h.index_le, h.disk_le,
      h.size_le⟩, h.clean, h.dirty⟩, ?_, ?_, fun hnone => ?_⟩, hclean, ⟨rfl, rfl, rfl⟩, rfl⟩
    · show f.buf.bufferIndex * E.pageSize ≤ f.fileOffset + n
      omega
    · show f.fileOffset + n < f.buf.bufferIndex * E.pageSize + E.pageSize
      omega
    · cases hb.symm.trans hnone

/-- The copy keeps the page, or it uses the page up and drops it. -/
theorem readTransfer_index {f' : EfFile} {b bytes : List UInt8} {nbyte : Nat} {po ret : Int}
    {err : Option Errno} (h : readTransfer E f b nbyte po = .ok (f', ret, err, bytes)) :
    f'.buf.buffer.isSome = true → f'.buf.bufferIndex = f.buf.bufferIndex := by
  unfold readTransfer at h
  split at h
  · cases h
    exact fun _ => rfl
  · split at h
    · cases h
    · simp only at h
      split at h
      · cases h
      · generalize (if nbyte ≤ E.pageSize - po.toNat then nbyte else E.pageSize - po.toNat) = wanted at h
        generalize (if f.fileOffset + wanted > f.currFileSizeOnDisk then
          wanted - (f.fileOffset + wanted - f.currFileSizeOnDisk) else wanted) = size at h
        split at h
        · cases h
          intro hsome
          cases hsome
        · split at h <;> cases h
          exact fun _ => rfl

/-- The `pread` of `ef_file_read` into a fresh page, when it returns all
that the file has there. -/
theorem readJobStep_load {s : PipelineState} (h : PagedFile E s.file content)
    (hclean : s.file.buf.isDirty = false) (hnone : s.file.buf.buffer = none)
    (hlive : s.recordLive = true)
    (hfull : (E.outcome s.file.fd.calls).moved ((content.drop s.file.fileOffset).take E.pageSize).length
      = some ((content.drop s.file.fileOffset).take E.pageSize).length) :
    ∃ f err, s.readJobStep E (.load s.file.buf.bufferIndex)
        = .ok ({ s with file := f },
            some (.publish (((content.drop s.file.fileOffset).take E.pageSize).length : Int) err)) ∧
      PagedFile E f content ∧ f.buf.isDirty = false ∧ SameMode s.file f ∧
      f.fileOffset = s.file.fileOffset ∧ f.buf.buffer ≠ none ∧
      f.buf.bufferIndex = s.file.buf.bufferIndex := by
  obtain ⟨hdata, hcurr⟩ := h.disk hclean
  have hpos := h.empty hnone
  obtain ⟨page, hpage⟩ : ∃ page, (content.drop s.file.fileOffset).take E.pageSize = page := ⟨_, rfl⟩
  obtain ⟨b, hb⟩ : ∃ b, writeAt (E.freshPage s.file.fd.pages) 0 page = b := ⟨_, rfl⟩
  have hlen : page.length ≤ E.pageSize := by
    rw [← hpage, List.length_take]
    exact Nat.min_le_left _ _
  obtain ⟨fd, hfd, hsame⟩ : ∃ fd,
      ({ s.file.fd with pages := s.file.fd.pages + 1 } : Descriptor).pread E E.pageSize
        (s.file.buf.bufferIndex * E.pageSize) = (fd, (page.length : Int), page) ∧
      SameFile s.file.fd fd := by
    rw [pread_of_full _ _ _ (by rw [← hpos, hdata]; exact hfull), ← hpos]
    refine ⟨{ s.file.fd with pages := s.file.fd.pages + 1, calls := s.file.fd.calls + 1 }, ?_, rfl, rfl⟩
    simp only [hdata, hpage]
  refine ⟨{ s.file with fd := fd, buf := { s.file.buf with buffer := some b } }, fd.errno, ?_,
    ⟨⟨⟨h.running, ?_, h.offset_le, ?_, fun p hp => ?_, ?_, ?_, ?_⟩, fun hc => ?_, fun hd => ?_⟩,
      h.index_le_offset, h.offset_lt, nofun⟩, hclean, ⟨rfl, hsame.append, rfl⟩, rfl, nofun, rfl⟩
  · rw [hpage]
    unfold readJobStep
    rw [derefRecord, if_pos hlive]
    simp only [hnone, Option.isNone_none, if_true, EfFile.allocBuffer, hfd, Option.map_some, hb]
    rfl
  · rw [hsame.data]
    exact h.curr
  · rintro b' hb'
    obtain rfl : b = b' := Option.some.inj hb'
    refine ⟨?_, fun i hi hlt => ?_⟩
    · rw [← hb, length_writeAt, length_freshPage]
      omega
    · change s.file.buf.bufferIndex * E.pageSize + i < content.length at hlt
      have hi' : i < page.length := by
        rw [← hpage, List.length_take, List.length_drop]
        omega
      show content[s.file.buf.bufferIndex * E.pageSize + i]? = _
      rw [← hb, getElem?_writeAt_mid _ (Nat.zero_le _) (by omega), Nat.sub_zero, ← hpage,
        List.getElem?_take_of_lt hi, List.getElem?_drop, hpos]
  · rw [show fd.data = s.file.fd.data from hsame.data]
    exact h.outside p hp
  · rw [show fd.data = s.file.fd.data from hsame.data]
    exact h.index_le
  · rw [show fd.data = s.file.fd.data from hsame.data]
    exact h.disk_le
  · rw [show fd.data = s.file.fd.data from hsame.data]
    exact h.size_le
  · rw [show fd.data = s.file.fd.data from hsame.data]
    exact hdata
  · cases hclean.symm.trans hd

end Efio.Proofs.Evio
