import Efio.Proofs.Evio.Sync

/-!
# `Efio.Proofs.Evio.PageImage`: what a file with a page buffer stands for

`PageImage f content` reads the page buffer of `f` over the disk file:
outside the buffer's page `content` is the disk file, inside it `content`
is the buffer, up to the running size. It says nothing of whether the
page is dirty, so it also describes a clean page just before its first
byte is overwritten.

* `PageImage.dirtied`: bytes copied into the buffer at the offset overlay
  the content there;
* `PageImage.sync`: writing the page back and cutting the file at the
  running size leaves exactly `content` on disk.

Both hold whether the buffer was loaded from the disk or not. The
overwriting engine (`OverwriteEngine.lean`) loads each page it enters, the
write-only one (`WriteOnlyEngine.lean`) does not.
-/

set_option autoImplicit false

namespace Efio.Proofs.Evio

open Efio.Lib
open Efio.Evio

/-- The buffer of `f` laid over its disk file, cut at the running size, is
`content`. -/
structure PageImage (E : Env) (f : EfFile) (content : List UInt8) : Prop where
  running : f.runningFileSize = content.length
  curr : f.currFileSizeOnDisk = f.fd.data.length
  offset_le : f.fileOffset ≤ content.length
  page : ∀ b ∈ f.buf.buffer, b.length = E.pageSize ∧
    ∀ i < E.pageSize, f.buf.bufferIndex * E.pageSize + i < content.length →
      content[f.buf.bufferIndex * E.pageSize + i]? = b[i]?
  outside : ∀ p, p < f.buf.bufferIndex * E.pageSize ∨
      f.buf.bufferIndex * E.pageSize + E.pageSize ≤ p → content[p]? = f.fd.data[p]?
  index_le : f.buf.bufferIndex * E.pageSize ≤ f.fd.data.length
  disk_le : f.fd.data.length ≤ content.length
  size_le : content.length ≤ max f.fd.data.length (f.buf.bufferIndex * E.pageSize + E.pageSize)

variable {E : Env} {f : EfFile} {content : List UInt8}

/-- Copying `ys` into the buffer at the offset overlays the content. -/
theorem PageImage.dirtied (h : PageImage E f content) {b : List UInt8} {po : Nat}
    (ys : List UInt8) (hb : f.buf.buffer = some b)
    (hpo : f.buf.bufferIndex * E.pageSize + po = f.fileOffset)
    (hin : po + ys.length ≤ E.pageSize) (hlt : po < E.pageSize) :
    PageImage E (dirtied E f (writeAt b po ys) ys.length) (writeAt content f.fileOffset ys) := by
  obtain ⟨hblen, hagree⟩ := h.page b hb
  have hoff := h.offset_le
  have hlen := length_writeAt content f.fileOffset ys
  have hmod : f.fileOffset % E.pageSize = po := by
    rw [← hpo, Nat.add_comm, Nat.add_mul_mod_self_right, Nat.mod_eq_of_lt hlt]
  refine ⟨?_, h.curr, ?_, ?_, ?_, h.index_le, ?_, ?_⟩
  · show grownSize E f ys.length = _
    rw [grownSize_eq f (by rw [h.running]; exact hoff) (by rw [hmod]; exact hin), hlen, h.running]
  · show f.fileOffset + ys.length ≤ _
    omega
  · intro page hpage
    obtain rfl : writeAt b po ys = page := Option.some.inj hpage
    refine ⟨by rw [length_writeAt, hblen]; omega, fun i hi hlt' => ?_⟩
    change (writeAt content f.fileOffset ys)[f.buf.bufferIndex * E.pageSize + i]? = _
    change f.buf.bufferIndex * E.pageSize + i < _ at hlt'
    rcases Nat.lt_or_ge i po with hbefore | hafter
    · rw [getElem?_writeAt_of_lt ys (by omega) (by omega),
        getElem?_writeAt_of_lt ys hbefore (by omega)]
      exact hagree i hi (by omega)
    · rcases Nat.lt_or_ge i (po + ys.length) with hmid | hend
      · rw [getElem?_writeAt_mid _ (by omega) (by omega), getElem?_writeAt_mid _ hafter hmid]
        congr 1
        omega
      · rw [getElem?_writeAt_of_ge _ (by omega), getElem?_writeAt_of_ge _ hend]
        exact hagree i hi (by omega)
  · intro p hp
    change p < f.buf.bufferIndex * E.pageSize ∨
      f.buf.bufferIndex * E.pageSize + E.pageSize ≤ p at hp
    rw [show (Efio.Evio.dirtied E f (writeAt b po ys) ys.length).fd = f.fd from rfl, ← h.outside p hp]
    rcases hp with hp | hp
    · rw [getElem?_writeAt_of_lt ys (by omega) (by omega)]
    · rw [getElem?_writeAt_of_ge _ (by omega)]
  · have := h.disk_le
    show f.fd.data.length ≤ _
    omega
  · have := h.size_le
    show _ ≤ max f.fd.data.length (f.buf.bufferIndex * E.pageSize + E.pageSize)
    omega

/-- The page written back and the file cut at the running size. -/
theorem PageImage.written (h : PageImage E f content) {b : List UInt8}
    (hb : f.buf.buffer = some b) :
    resize (writeAt f.fd.data (f.buf.bufferIndex * E.pageSize) b) f.runningFileSize = content := by
  obtain ⟨hblen, hagree⟩ := h.page b hb
  have hidx := h.index_le
  have hsize := h.size_le
  have hlen := length_writeAt f.fd.data (f.buf.bufferIndex * E.pageSize) b
  rw [h.running]
  apply List.ext_getElem?
  intro p
  rcases Nat.lt_or_ge p content.length with hp | hp
  · rw [getElem?_resize_of_lt hp (by omega)]
    rcases Nat.lt_or_ge p (f.buf.bufferIndex * E.pageSize) with hbefore | hge
    · rw [getElem?_writeAt_of_lt b hbefore (by omega), h.outside p (Or.inl hbefore)]
    · rcases Nat.lt_or_ge p (f.buf.bufferIndex * E.pageSize + E.pageSize) with hmid | hafter
      · have hi := hagree (p - f.buf.bufferIndex * E.pageSize) (by omega) (by omega)
        rw [Nat.add_sub_of_le hge] at hi
        rw [getElem?_writeAt_mid _ hge (by omega), hi]
      · rw [getElem?_writeAt_of_ge _ (by omega), h.outside p (Or.inr hafter)]
  · rw [getElem?_resize_of_le hp, List.getElem?_eq_none hp]

/-- `sync_buf_to_file` on a dirty page leaves `content` on disk. -/
theorem PageImage.sync (hE : E.Reliable) (h : PageImage E f content)
    (happend : f.fd.append = false) (hdirty : f.buf.isDirty = true) {b : List UInt8}
    (hb : f.buf.buffer = some b) :
    ∃ fd, syncBufToFile E f = .ok { f with fd := fd, buf := { f.buf with isDirty := false } } ∧
      fd.data = content ∧ fd.append = false := by
  obtain ⟨fd, hsync, hfd, happ⟩ := syncBufToFile_eq hE f b hdirty hb
  refine ⟨fd, hsync, ?_, happ.trans happend⟩
  rw [hfd, store_of_not_append happend b h.index_le, h.written hb]

/-- `g` is `f` after its full page `b` went to the disk, at the start of
the next page: the disk file is `content`, and both sizes agree with it. -/
structure TurnedPage (f : EfFile) (content b : List UInt8) (g : EfFile) : Prop where
  data : g.fd.data = content
  append : g.fd.append = false
  curr : g.currFileSizeOnDisk = content.length
  running : g.runningFileSize = content.length
  offset : g.fileOffset = f.fileOffset
  oflag : g.oflag = f.oflag
  unaligned : g.blockWriteUnaligned = f.blockWriteUnaligned
  buffer : g.buf.buffer = some b
  index : g.buf.bufferIndex = f.buf.bufferIndex + 1

/-- The end of a page: the page goes to the disk, and what remains is the
`sync_buf_from_file` of the next page. -/
theorem PageImage.turn (hE : E.Reliable) (h : PageImage E f content)
    (happend : f.fd.append = false) (hdirty : f.buf.isDirty = true) {b : List UInt8}
    (hb : f.buf.buffer = some b)
    (hend : f.fileOffset = f.buf.bufferIndex * E.pageSize + E.pageSize) :
    ∃ g, (syncBufToFile E f).bind (nextPage E) = syncBufFromFile E g ∧
      TurnedPage f content b g := by
  obtain ⟨fd, hsync, hfd, happ⟩ := h.sync hE happend hdirty hb
  have hcurr : (if (f.buf.bufferIndex + 1) * E.pageSize > f.currFileSizeOnDisk then
      (f.buf.bufferIndex + 1) * E.pageSize else f.currFileSizeOnDisk) = content.length := by
    have hdisk := h.disk_le
    have hsize := h.size_le
    have hoff := h.offset_le
    rw [h.curr, Nat.add_mul, Nat.one_mul]
    split <;> omega
  refine ⟨{ f with
    fd := fd
    currFileSizeOnDisk :=
      if (f.buf.bufferIndex + 1) * E.pageSize > f.currFileSizeOnDisk then
        (f.buf.bufferIndex + 1) * E.pageSize
      else f.currFileSizeOnDisk
    buf := { f.buf with bufferIndex := f.buf.bufferIndex + 1, isDirty := false } }, ?_,
    ⟨hfd, happ, hcurr, h.running, rfl, rfl, rfl, hb, rfl⟩⟩
  rw [hsync]
  rfl

/-- Once `content` is on disk, it is what a clean file stands for. -/
theorem PageImage.synced (h : PageImage E f content) {fd : Descriptor} (hfd : fd.data = content)
    (hidx : f.buf.bufferIndex * E.pageSize ≤ f.fileOffset) :
    PageImage E { f with
      currFileSizeOnDisk := f.runningFileSize
      buf := { f.buf with isDirty := false }
      fd := fd } content where
  running := h.running
  curr := by rw [hfd]; exact h.running
  offset_le := h.offset_le
  page := h.page
  outside p _ := by rw [hfd]
  index_le := by rw [hfd]; exact Nat.le_trans hidx h.offset_le
  disk_le := Nat.le_of_eq (by rw [hfd])
  size_le := by rw [hfd]; exact Nat.le_max_left _ _

/-- A clean file whose buffer `b` holds anything: the image has `b` in its
page. -/
theorem PageImage.of_clean {b : List UInt8} (hb : f.buf.buffer = some b)
    (hblen : b.length = E.pageSize) (hrunning : f.runningFileSize = f.fd.data.length)
    (hcurr : f.currFileSizeOnDisk = f.fd.data.length)
    (hidx : f.buf.bufferIndex * E.pageSize ≤ f.fileOffset)
    (hoff : f.fileOffset ≤ f.fd.data.length) :
    PageImage E f
      (resize (writeAt f.fd.data (f.buf.bufferIndex * E.pageSize) b) f.fd.data.length) := by
  have hlen := length_writeAt f.fd.data (f.buf.bufferIndex * E.pageSize) b
  refine ⟨by rw [length_resize, hrunning], hcurr, by rw [length_resize]; exact hoff, ?_, ?_, by omega,
    Nat.le_of_eq (length_resize _ _).symm, by rw [length_resize]; exact Nat.le_max_left _ _⟩
  · intro b' hb'
    obtain rfl : b = b' := Option.some.inj (hb.symm.trans hb')
    refine ⟨hblen, fun i hi hlt => ?_⟩
    rw [length_resize] at hlt
    rw [getElem?_resize_of_lt hlt (by omega), getElem?_writeAt_mid _ (by omega) (by omega)]
    congr 1
    omega
  · intro p hp
    rcases Nat.lt_or_ge p f.fd.data.length with hlt | hge
    · rw [getElem?_resize_of_lt hlt (by omega)]
      rcases hp with hp | hp
      · rw [getElem?_writeAt_of_lt b hp hlt]
      · rw [getElem?_writeAt_of_ge _ (by omega)]
    · rw [getElem?_resize_of_le hge, List.getElem?_eq_none hge]

end Efio.Proofs.Evio
