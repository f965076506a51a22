import Efio.Proofs.Evio.DiskContent
import Efio.Proofs.Evio.FullCalls
import Efio.Spec.FlushedPages

/-!
# `Efio.Proofs.Evio.CleanDisk`: the disk file of a clean page

When the tasks have left a clean page, what they wrote is on disk. This is
read off the invariants of the three engines, for any sequence of write
tasks and `fsync`s. `onDisk_of_fullCalls` asks only the calls that were
made to have succeeded in full.
-/

set_option autoImplicit false

namespace Efio.Proofs.Evio

open Efio.Lib
open Efio.Evio
open Efio.Spec

variable {E : Env} {oflag : OFlag} {ws : List WriteTask} {f : EfFile}

theorem onDisk_append (hE : E.Reliable) (happend : oflag.has O_APPEND)
    (hwrite : oflag.has (O_WRONLY ||| O_RDWR)) (init : List UInt8)
    (hrun : execTasks E (efFileOpen E oflag init) ws = .ok f) (hclean : f.buf.isDirty = false) :
    OnDisk oflag init (payload ws) f.fd.data := by
  obtain ⟨f', hrun', content, hfile, hcontent⟩ := execTasks_rule (E := E)
    (I := fun rest f => ∃ content, AppendFile E f content ∧
      content ++ payload rest = openedData oflag init ++ payload ws)
    (fun w rest f ⟨content, hfile, hcontent⟩ => by
      obtain ⟨f', n, hexec, hfile', -⟩ := execTask_append hE hfile w
      refine ⟨f', n, hexec, _, hfile', ?_⟩
      rw [List.append_assoc]
      exact hcontent)
    ws _ ⟨_, efFileOpen_append happend hwrite init, rfl⟩
  cases hrun.symm.trans hrun'
  rw [show payload [] = [] from rfl, List.append_nil] at hcontent
  intro i _
  rw [(hfile.clean hclean).1, hcontent, writeStart, if_pos happend,
    List.getElem?_append_right (Nat.le_add_right _ _), Nat.add_sub_cancel_left]

theorem onDisk_overwrite (hE : E.Reliable) (hread : oflag.has O_RDWR) (happend : ¬ oflag.has O_APPEND)
    (init : List UInt8) (hrun : execTasks E (efFileOpen E oflag init) ws = .ok f)
    (hclean : f.buf.isDirty = false) : OnDisk oflag init (payload ws) f.fd.data := by
  obtain ⟨hopen, hoff⟩ := efFileOpen_overwrite (E := E) hread happend init
  obtain ⟨f', hrun', content, hfile, hcontent⟩ := execTasks_rule (E := E)
    (I := fun rest f => ∃ content, OverwriteFile E f content ∧
      writeAt content f.fileOffset (payload rest) = writeAt (openedData oflag init) 0 (payload ws))
    (fun w rest f ⟨content, hfile, hcontent⟩ => by
      obtain ⟨f', n, hexec, hfile', hoff', -⟩ := execTask_overwrite hE hfile w
      refine ⟨f', n, hexec, _, hfile', ?_⟩
      rw [hoff', writeAt_writeAt_append _ _ hfile.offset_le]
      exact hcontent)
    ws _ ⟨_, hopen, by rw [hoff]⟩
  cases hrun.symm.trans hrun'
  have hstands : content = writeAt (openedData oflag init) 0 (payload ws) :=
    (writeAt_nil_of_le hfile.offset_le).symm.trans hcontent
  intro i hi
  rw [hfile.clean hclean, hstands, writeStart, if_neg happend, Nat.zero_add,
    getElem?_writeAt_mid _ (Nat.zero_le i) (by omega), Nat.sub_zero]

theorem onDisk_writeOnly (hE : E.Reliable) (hwrite : oflag.has O_WRONLY) (hread : ¬ oflag.has O_RDWR)
    (happend : ¬ oflag.has O_APPEND) (init : List UInt8)
    (hrun : execTasks E (efFileOpen E oflag init) ws = .ok f) (hclean : f.buf.isDirty = false) :
    OnDisk oflag init (payload ws) f.fd.data := by
  obtain ⟨total, htotal⟩ : ∃ total, payload ws = total := ⟨_, rfl⟩
  obtain ⟨hopen, hoff⟩ := efFileOpen_writeOnly (E := E) hwrite hread happend init total
  obtain ⟨f', hrun', hfile, hstream⟩ := execTasks_rule (E := E)
    (I := fun rest f => WriteOnlyFile E (openedData oflag init) total f ∧
      total.drop f.fileOffset = payload rest)
    (fun w rest f ⟨hfile, hstream⟩ => by
      obtain ⟨f', n, hexec, hfile', hstream', -⟩ := execTask_writeOnly hE hfile hstream
      exact ⟨f', n, hexec, hfile', hstream'⟩)
    ws _ ⟨hopen, by rw [hoff, htotal]; rfl⟩
  cases hrun.symm.trans hrun'
  have hend : f.fileOffset = total.length :=
    Nat.le_antisymm hfile.offset_le (List.drop_eq_nil_iff.mp hstream)
  rw [htotal]
  intro i hi
  rw [writeStart, if_neg happend, Nat.zero_add]
  by_cases hpage : f.fileOffset = f.buf.bufferIndex * E.pageSize
  · exact (hfile.start hpage).written i (by omega)
  · obtain ⟨-, content, -, hcovered, hdata⟩ := hfile.mid hpage
    rw [hdata hclean]
    exact hcovered.written i (by omega)

/-- When the page is clean, what was written is on disk. -/
theorem onDisk_of_clean (hE : E.Reliable) (hwritable : oflag.has (O_RDWR ||| O_WRONLY))
    (init : List UInt8) (hrun : execTasks E (efFileOpen E oflag init) ws = .ok f)
    (hclean : f.buf.isDirty = false) : OnDisk oflag init (payload ws) f.fd.data := by
  by_cases happend : oflag.has O_APPEND
  · have hwrite : oflag.has (O_WRONLY ||| O_RDWR) :=
      OFlag.has_or.mpr (OFlag.has_or.mp hwritable).symm
    exact onDisk_append hE happend hwrite init hrun hclean
  · by_cases hread : oflag.has O_RDWR
    · exact onDisk_overwrite hE hread happend init hrun hclean
    · have hwrite := (OFlag.has_or.mp hwritable).resolve_left hread
      exact onDisk_writeOnly hE hwrite hread happend init hrun hclean

/-- The same when the calls made so far have succeeded in full. -/
theorem onDisk_of_fullCalls (hfull : FullBefore E f.fd.calls)
    (hwritable : oflag.has (O_RDWR ||| O_WRONLY)) (init : List UInt8)
    (hrun : execTasks E (efFileOpen E oflag init) ws = .ok f) (hclean : f.buf.isDirty = false) :
    OnDisk oflag init (payload ws) f.fd.data := by
  have hsame := (execTasks_allFull hfull ws _ f hrun).2 (Nat.le_refl _)
  exact onDisk_of_clean (reliable_allFull E) hwritable init hsame hclean

end Efio.Proofs.Evio
