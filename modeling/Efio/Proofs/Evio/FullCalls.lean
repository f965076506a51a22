import Efio.Proofs.Evio.EngineFrame
import Efio.Proofs.Evio.Batches

/-!
# `Efio.Proofs.Evio.FullCalls`: only the calls that were made matter

`calls` counts the system calls on a descriptor, and `Env` answers each of
them by its number. `AsIfFull` compares a piece of the page engine with the
same piece under `E.allFull`, where every call succeeds in full: as long as
all calls before `N` do so and no more than `N` are made, the two are the
same. `execTasks_allFull` is this for a sequence of tasks. So what is known
of reliable environments holds in every run that met no failed or short
call, whatever would have come later.
-/

set_option autoImplicit false

namespace Efio.Proofs.Evio

open Efio.Lib
open Efio.Evio

variable {E : Env} {N : Nat}

/-- `E` with every system call in full. -/
def allFull (E : Env) : Env := { E with outcome := fun _ => .full }

@[simp] theorem allFull_pageSize (E : Env) : (allFull E).pageSize = E.pageSize := rfl

theorem reliable_allFull (E : Env) : (allFull E).Reliable := fun _ => rfl

/-- All calls before the `N`-th succeed in full. -/
def FullBefore (E : Env) (N : Nat) : Prop := ∀ k < N, E.outcome k = .full

/-- When `r` returns after at most `N` calls, `r'` returns the same. `before`
calls had been made at the start. -/
def AsIfFull {α : Type} (N before : Nat) (calls : α → Nat) (r r' : Except Fault α) : Prop :=
  ∀ a, r = .ok a → before ≤ calls a ∧ (calls a ≤ N → r' = .ok a)

section Combinators

variable {α β : Type} {before : Nat} {c : α → Nat} {c' : β → Nat}

theorem asIfFull_ok {a : α} (h : before ≤ c a) : AsIfFull N before c (.ok a) (.ok a) :=
  fun _ heq => by
    cases heq
    exact ⟨h, fun _ => rfl⟩

theorem asIfFull_error (e : Fault) (r : Except Fault α) : AsIfFull N before c (.error e) r :=
  fun _ heq => by cases heq

theorem AsIfFull.bind {r r' : Except Fault α} {g g' : α → Except Fault β}
    (h : AsIfFull N before c r r') (hg : ∀ a, AsIfFull N (c a) c' (g a) (g' a)) :
    AsIfFull N before c' (r >>= g) (r' >>= g') := by
  intro b hb
  obtain ⟨a, hr, hgb⟩ := bind_eq_ok.mp hb
  obtain ⟨hle, hsame⟩ := h a hr
  obtain ⟨hle', hsame'⟩ := hg a b hgb
  refine ⟨Nat.le_trans hle hle', fun hN => bind_eq_ok.mpr ⟨a, hsame (Nat.le_trans hle' hN), hsame' hN⟩⟩

theorem AsIfFull.map {r r' : Except Fault α} {g : α → β} (h : AsIfFull N before c r r')
    (hg : ∀ a, c' (g a) = c a) : AsIfFull N before c' (r.map g) (r'.map g) := by
  intro b hb
  obtain ⟨a, hr, rfl⟩ := map_eq_ok hb
  obtain ⟨hle, hsame⟩ := h a hr
  rw [hg]
  refine ⟨hle, fun hN => ?_⟩
  rw [hsame hN]
  rfl

end Combinators

/-! ### The system calls -/

/-- The calls made on a file. -/
def madeCalls (f : EfFile) : Nat := f.fd.calls

theorem pwrite_calls (fd : Descriptor) (buf : List UInt8) (off : Nat) :
    (fd.pwrite E buf off).1.calls = fd.calls + 1 := by
  unfold Descriptor.pwrite
  split <;> rfl

theorem pread_calls (fd : Descriptor) (n off : Nat) :
    (fd.pread E n off).1.calls = fd.calls + 1 := by
  simp only [Descriptor.pread]
  split <;> rfl

theorem ftruncate_calls (fd : Descriptor) (n : Nat) :
    (fd.ftruncate E n).1.calls = fd.calls + 1 := by
  unfold Descriptor.ftruncate
  split <;> rfl

theorem pwrite_allFull (hN : FullBefore E N) (fd : Descriptor) (buf : List UInt8) (off : Nat)
    (h : fd.calls < N) : fd.pwrite (allFull E) buf off = fd.pwrite E buf off := by
  unfold Descriptor.pwrite
  rw [hN _ h]
  rfl

theorem pread_allFull (hN : FullBefore E N) (fd : Descriptor) (n off : Nat) (h : fd.calls < N) :
    fd.pread (allFull E) n off = fd.pread E n off := by
  unfold Descriptor.pread
  rw [hN _ h]
  rfl

theorem ftruncate_allFull (hN : FullBefore E N) (fd : Descriptor) (n : Nat) (h : fd.calls < N) :
    fd.ftruncate (allFull E) n = fd.ftruncate E n := by
  unfold Descriptor.ftruncate
  rw [hN _ h]
  rfl

/-! ### The two copies of a page -/

theorem loadPage_allFull (hN : FullBefore E N) (f : EfFile) (b : List UInt8) :
    AsIfFull N (madeCalls f) madeCalls (f.loadPage E b) (f.loadPage (allFull E) b) := by
  intro f' h
  have hcalls := pread_calls (E := E) f.fd.clearErrno E.pageSize (f.buf.bufferIndex * E.pageSize)
  have hsame := pread_allFull hN f.fd.clearErrno E.pageSize (f.buf.bufferIndex * E.pageSize)
  simp only [EfFile.loadPage, allFull_pageSize] at h ⊢
  rcases hread : f.fd.clearErrno.pread E E.pageSize (f.buf.bufferIndex * E.pageSize)
    with ⟨fd, ret, bytes⟩
  simp only [hread] at h hcalls hsame
  split at h
  · cases h
  · rename_i hret
    cases h
    change fd.calls = f.fd.calls + 1 at hcalls
    simp only [madeCalls]
    refine ⟨by omega, fun hle => ?_⟩
    have hlt : f.fd.clearErrno.calls < N := by
      show f.fd.calls < N
      omega
    simp only [hsame hlt, if_neg hret]

theorem syncBufFromFile_allFull (hN : FullBefore E N) (f : EfFile) :
    AsIfFull N (madeCalls f) madeCalls (syncBufFromFile E f) (syncBufFromFile (allFull E) f) := by
  have hbuffer : madeCalls (if f.buf.buffer.isNone then f.allocBuffer E else f) = madeCalls f := by
    split <;> rfl
  rw [← hbuffer]
  -- A new page is the same in both environments.
  obtain ⟨g, hg⟩ : ∃ g, (if f.buf.buffer.isNone then f.allocBuffer E else f) = g := ⟨_, rfl⟩
  have hg' : (if f.buf.buffer.isNone then f.allocBuffer (allFull E) else f) = g := hg
  simp only [syncBufFromFile, hg, hg', allFull_pageSize]
  split
  · split
    · split
      · exact loadPage_allFull hN _ _
      · exact asIfFull_error _ _
    · exact asIfFull_ok (Nat.le_refl _)
  · exact asIfFull_ok (Nat.le_refl _)

/-- The end of `sync_buf_to_file`. -/
theorem truncated_allFull (hN : FullBefore E N) (f : EfFile) (fd : Descriptor) :
    AsIfFull N fd.calls madeCalls
      (let (fd, ret) := fd.ftruncate E f.runningFileSize
       if ret ≠ 0 then .error (.evAbort "ftruncate call failed")
       else .ok { f with fd := fd, buf := { f.buf with isDirty := false } })
      (let (fd, ret) := fd.ftruncate (allFull E) f.runningFileSize
       if ret ≠ 0 then .error (.evAbort "ftruncate call failed")
       else .ok { f with fd := fd, buf := { f.buf with isDirty := false } }) := by
  intro f' h
  have hcalls := ftruncate_calls (E := E) fd f.runningFileSize
  have hsame := ftruncate_allFull hN fd f.runningFileSize
  rcases htrunc : fd.ftruncate E f.runningFileSize with ⟨fd', ret⟩
  simp only [htrunc] at h hcalls hsame
  split at h
  · cases h
  · rename_i hret
    cases h
    simp only [madeCalls]
    exact ⟨by omega, fun hle => by simp only [hsame (by omega), if_neg hret]⟩

theorem syncBufToFile_allFull (hN : FullBefore E N) (f : EfFile) :
    AsIfFull N (madeCalls f) madeCalls (syncBufToFile E f) (syncBufToFile (allFull E) f) := by
  unfold syncBufToFile
  split
  · cases hb : f.buf.buffer with
    | none => exact truncated_allFull hN f { f.fd with errno := some .efault }
    | some b =>
      intro f' h
      have hcalls := pwrite_calls (E := E) f.fd.clearErrno b (f.buf.bufferIndex * E.pageSize)
      obtain ⟨hle, hsame⟩ := truncated_allFull hN f _ f' h
      change (f.fd.clearErrno.pwrite E b _).1.calls ≤ madeCalls f' at hle
      rw [hcalls] at hle
      change f.fd.calls + 1 ≤ madeCalls f' at hle
      refine ⟨Nat.le_trans (Nat.le_succ _) hle, fun hN' => ?_⟩
      have hlt : f.fd.clearErrno.calls < N := Nat.lt_of_lt_of_le hle hN'
      simp only [allFull_pageSize, pwrite_allFull hN _ _ _ hlt]
      exact hsame hN'
  · exact asIfFull_ok (Nat.le_refl _)

/-! ### `ef_one_single_write` -/

theorem ensureBuffer_allFull (hN : FullBefore E N) (f : EfFile) :
    AsIfFull N (madeCalls f) madeCalls (ensureBuffer E f) (ensureBuffer (allFull E) f) := by
  unfold ensureBuffer
  split
  · exact syncBufFromFile_allFull hN f
  · exact asIfFull_ok (Nat.le_refl _)

/-- The calls made on the file of a cursor. -/
def cursorCalls (c : Cursor) : Nat := madeCalls c.file

theorem AsIfFull.atPageStart {before : Nat} {r r' : Except Fault EfFile} (c : Cursor)
    (h : AsIfFull N before madeCalls r r') :
    AsIfFull N before cursorCalls (r.map c.atPageStart) (r'.map c.atPageStart) :=
  h.map fun _ => rfl

theorem unalignedTransfer_allFull (hN : FullBefore E N) (w : WriteTask) (c : Cursor) (n : Nat) :
    AsIfFull N (cursorCalls c) cursorCalls (unalignedTransfer E w c n)
      (unalignedTransfer (allFull E) w c n) := by
  intro c' h
  have hcalls := pwrite_calls (E := E) c.file.fd.clearErrno (w.buf.take n) c.file.currFileSizeOnDisk
  have hsame := pwrite_allFull hN c.file.fd.clearErrno (w.buf.take n) c.file.currFileSizeOnDisk
  simp only [unalignedTransfer, allFull_pageSize] at h ⊢
  split at h
  · cases h
  · rename_i hmode
    rcases hwrite : c.file.fd.clearErrno.pwrite E (w.buf.take n) c.file.currFileSizeOnDisk
      with ⟨fd, ret⟩
    simp only [hwrite] at h hcalls hsame
    change fd.calls = c.file.fd.calls + 1 at hcalls
    split at h
    · cases h
    · rename_i hret
      split at h
      · rename_i hend
        obtain ⟨hle, hleave⟩ := ((syncBufFromFile_allFull hN _).atPageStart _) c' h
        change fd.calls ≤ _ at hle
        refine ⟨Nat.le_trans (by show c.file.fd.calls ≤ fd.calls; omega) hle, fun hN' => ?_⟩
        have hlt : c.file.fd.clearErrno.calls < N := by
          show c.file.fd.calls < N
          omega
        simp only [if_neg hmode, hsame hlt, if_neg hret, if_pos hend]
        exact hleave hN'
      · rename_i hend
        cases h
        refine ⟨by show c.file.fd.calls ≤ fd.calls; omega, fun hN' => ?_⟩
        change fd.calls ≤ N at hN'
        have hlt : c.file.fd.clearErrno.calls < N := by
          show c.file.fd.calls < N
          omega
        simp only [if_neg hmode, hsame hlt, if_neg hret, if_neg hend]

/-- The end of a pass in buffered mode. -/
theorem pageEnd_allFull (hN : FullBefore E N) (c : Cursor) :
    AsIfFull N (cursorCalls c) cursorCalls
      (if c.pageOffset = E.pageSize then do
        let f ← syncBufToFile E c.file
        (nextPage E f).map c.atPageStart
      else if c.pageOffset > E.pageSize then .error (.evAbort "Should have never reached here")
      else .ok c)
      (if c.pageOffset = (allFull E).pageSize then do
        let f ← syncBufToFile (allFull E) c.file
        (nextPage (allFull E) f).map c.atPageStart
      else if c.pageOffset > (allFull E).pageSize then
        .error (.evAbort "Should have never reached here")
      else .ok c) := by
  rw [allFull_pageSize]
  by_cases hend : c.pageOffset = E.pageSize
  · rw [if_pos hend, if_pos hend]
    exact (syncBufToFile_allFull hN _).bind fun f => (syncBufFromFile_allFull hN _).atPageStart c
  · rw [if_neg hend, if_neg hend]
    split
    · exact asIfFull_error _ _
    · exact asIfFull_ok (Nat.le_refl _)

theorem bufferedTransfer_allFull (hN : FullBefore E N) (w : WriteTask) (c : Cursor) (n : Nat) :
    AsIfFull N (cursorCalls c) cursorCalls (bufferedTransfer E w c n)
      (bufferedTransfer (allFull E) w c n) := by
  unfold bufferedTransfer
  split
  · exact asIfFull_error _ _
  · exact pageEnd_allFull hN _

theorem transferStep_allFull (hN : FullBefore E N) (w : WriteTask) (c : Cursor) :
    AsIfFull N (cursorCalls c) cursorCalls (transferStep E w c) (transferStep (allFull E) w c) := by
  refine (ensureBuffer_allFull hN c.file).bind fun f => ?_
  simp only [allFull_pageSize]
  split
  · exact unalignedTransfer_allFull hN w _ _
  · exact bufferedTransfer_allFull hN w _ _

theorem transferLoop_allFull (hN : FullBefore E N) (w : WriteTask) (fuel : Nat) (c : Cursor) :
    AsIfFull N (cursorCalls c) cursorCalls (transferLoop E w fuel c)
      (transferLoop (allFull E) w fuel c) := by
  induction fuel generalizing c with
  | zero =>
    unfold transferLoop
    split
    · exact asIfFull_ok (Nat.le_refl _)
    · exact asIfFull_error _ _
  | succ fuel ih =>
    unfold transferLoop
    split
    · exact asIfFull_ok (Nat.le_refl _)
    · exact (transferStep_allFull hN w c).bind fun c' => ih c'

/-! ### The tasks -/

theorem appendPosition_calls {f f' : EfFile} (h : appendPosition E f = .ok f') :
    madeCalls f' = madeCalls f := by
  obtain ⟨offset, index, buffer, rfl⟩ := appendPosition_frame h
  rfl

theorem execTask_allFull (hN : FullBefore E N) (f : EfFile) (w : WriteTask) :
    AsIfFull N (madeCalls f) (fun r => madeCalls r.1) (execTask E f w) (execTask (allFull E) f w) := by
  unfold execTask
  cases w.cmd with
  | fileWriteEvt =>
    refine AsIfFull.bind (c := madeCalls) ?_ fun f₁ => ?_
    · intro f₁ hpos
      exact ⟨Nat.le_of_eq (appendPosition_calls hpos).symm, fun _ => hpos⟩
    · exact AsIfFull.bind (transferLoop_allFull hN w w.nbyte _) fun c => asIfFull_ok (Nat.le_refl _)
  | fileFsyncEvt =>
    refine AsIfFull.bind (c := madeCalls) ?_ fun f₁ => asIfFull_ok (Nat.le_refl _)
    refine (syncBufToFile_allFull hN _).bind fun f₁ => ?_
    simp only [allFull_pageSize]
    split
    · exact asIfFull_ok (Nat.le_refl _)
    · split <;> exact asIfFull_ok (Nat.le_refl _)

/-- Tasks that met no failed or short call ran as under `allFull E`. -/
theorem execTasks_allFull (hN : FullBefore E N) (ws : List WriteTask) (f : EfFile) :
    AsIfFull N (madeCalls f) madeCalls (execTasks E f ws) (execTasks (allFull E) f ws) := by
  induction ws generalizing f with
  | nil => exact asIfFull_ok (Nat.le_refl _)
  | cons w ws ih =>
    rw [execTasks, execTasks, List.foldlM_cons, List.foldlM_cons]
    refine AsIfFull.bind (c := madeCalls) ?_ fun f₁ => ih f₁
    exact (execTask_allFull hN f w).bind fun r => asIfFull_ok (Nat.le_refl _)

end Efio.Proofs.Evio
